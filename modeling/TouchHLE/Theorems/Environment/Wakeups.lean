import TouchHLE.Spec.CondVar
import TouchHLE.Theorems.Environment.Effects
import TouchHLE.Theorems.Environment.Timeouts

/-! Waits without a deadline. A signal goes to the thread that has waited longest, a broadcast to all, and each wake-up is
    returned from once. A thread behind a suspended one in the queue of those to be woken has to wait for it, though. -/

namespace TouchHLE.Environment
open Lib Spec List ThreadBlock

variable (s : Environment)

def waitingOn (c : Nat) : List Nat := (s.condAt c).waiting

def wakingOn (c : Nat) : List Nat := (s.condAt c).waking

def condEvents (call : Call) (r : Result) (t : Environment) : List (CondVar.Event Nat Nat) :=
  match call, r with
  | .pthreadCondWait c _, .yielded => [.waits s.currentThread c]
  | .pthreadCondSignal c, .returned v => if v = 0 then ((s.waitingOn c).take 1).map (.wakes · c) else []
  | .pthreadCondBroadcast c, .returned v => if v = 0 then (s.waitingOn c).map (.wakes · c) else []
  | .schedule _, .resumed (.condWait c _) _ => [.returns t.currentThread c]
  | _, _ => []

def Untimed (s : Environment) (call : Call) : Prop := s.Enabled call ∧
    match call with
    | .pthreadCondTimedwait _ _ _ => False
    | _ => True

instance (s : Environment) (call : Call) : Decidable (s.Untimed call) := by
  apply Call.casesOn (motive := fun call => Decidable (s.Untimed call)) call <;> intros <;> exact instDecidableAnd

/-- Exactly these threads go from one queue of the variable to the other, and nothing else changes in a queue. -/
structure Moved (s t : Environment) (c : Nat) (is : List Nat) : Prop where
  waiting : s.waitingOn c = is ++ t.waitingOn c
  waking : t.wakingOn c = s.wakingOn c ++ is
  others : ∀ c', c' ≠ c → t.waitingOn c' = s.waitingOn c' ∧ t.wakingOn c' = s.wakingOn c'

inductive Queueing (s t : Environment) : List (CondVar.Event Nat Nat) → Prop where
  | same (waiting : t.waitingOn = s.waitingOn) (waking : t.wakingOn = s.wakingOn) : Queueing s t []
  | waits {c : Nat} {th : Thread} (thread : s.threads[s.currentThread]? = some th) (runs : th.blockedBy = .notBlocked)
      (waiting : ∀ c', t.waitingOn c' = if c' = c then s.waitingOn c ++ [s.currentThread] else s.waitingOn c')
      (waking : t.wakingOn = s.wakingOn) : Queueing s t [.waits s.currentThread c]
  | wakes {c : Nat} {is : List Nat} (moved : Moved s t c is) : Queueing s t (is.map (.wakes · c))
  | returns {c i : Nat} {rest : List Nat} (first : s.wakingOn c = i :: rest) (waiting : t.waitingOn = s.waitingOn)
      (waking : ∀ c', t.wakingOn c' = if c' = c then rest else s.wakingOn c') : Queueing s t [.returns i c]

section
variable {s t : Environment} {c i : Nat} {call : Call} {r : Result} {log es : List (CondVar.Event Nat Nat)}
variable {is rest : List Nat} {b : ThreadBlock} {s₁ : Environment} {th : Thread} {p q : CondVar.Phase Nat}

theorem condAt_of_core (h : t.core = s.core) : t.condAt = s.condAt := by
  funext c
  rw [condAt, condAt, conds_of_core h]

variable (o : Option CondHostObject) (c' : Nat)

theorem condAt_setCond : (s.setCond c o).condAt c' = if c' = c then o.getD ⟨[], [], none, []⟩ else s.condAt c' := by
  rw [condAt, conds_setCond]
  split <;> rfl

theorem waitingOn_setCond :
    (s.setCond c o).waitingOn c' = if c' = c then (o.getD ⟨[], [], none, []⟩).waiting else s.waitingOn c' := by
  rw [waitingOn, condAt_setCond]
  split <;> rfl

theorem wakingOn_setCond :
    (s.setCond c o).wakingOn c' = if c' = c then (o.getD ⟨[], [], none, []⟩).waking else s.wakingOn c' := by
  rw [wakingOn, condAt_setCond]
  split <;> rfl

theorem waitingOn_of_core (h : t.core = s.core) : t.waitingOn = s.waitingOn := by
  funext c
  rw [waitingOn, waitingOn, condAt_of_core h]

theorem wakingOn_of_core (h : t.core = s.core) : t.wakingOn = s.wakingOn := by
  funext c
  rw [wakingOn, wakingOn, condAt_of_core h]

theorem Queueing.of_condAt (h : ∀ c, (t.condAt c).waiting = s.waitingOn c ∧ (t.condAt c).waking = s.wakingOn c) :
    Queueing s t [] := .same (funext fun c => (h c).1) (funext fun c => (h c).2)

theorem Queueing.of_conds (h : t.conditionVariables = s.conditionVariables) : Queueing s t [] := by
  refine .of_condAt fun c => ?_
  rw [condAt, h]
  exact ⟨rfl, rfl⟩

theorem Queueing.of_core (h : t.core = s.core) : Queueing s t [] := .of_conds (conds_of_core h)

theorem Queueing.of_setCond {o} (h : t.core = (s.setCond c o).core)
    (hwn : (o.getD ⟨[], [], none, []⟩).waiting = s.waitingOn c)
    (hwk : (o.getD ⟨[], [], none, []⟩).waking = s.wakingOn c) : Queueing s t [] := by
  refine .of_condAt fun c' => ?_
  rw [condAt_of_core h, condAt_setCond]
  split
  · rename_i hc
    exact hc ▸ ⟨hwn, hwk⟩
  · exact ⟨rfl, rfl⟩

theorem Moved.of_core {o} (h : t.core = (s.setCond c (some o)).core)
    (hwn : s.waitingOn c = is ++ o.waiting) (hwk : o.waking = s.wakingOn c ++ is) : Moved s t c is where
  waiting := by
    rw [waitingOn_of_core h, waitingOn_setCond, if_pos rfl]
    exact hwn
  waking := by
    rw [wakingOn_of_core h, wakingOn_setCond, if_pos rfl]
    exact hwk
  others := fun c' hc => by
    rw [waitingOn_of_core h, wakingOn_of_core h, waitingOn_setCond, wakingOn_setCond, if_neg hc, if_neg hc]
    exact ⟨rfl, rfl⟩

theorem CondHostObject.signal_eq (o : CondHostObject) :
    o.signal = { o with waiting := o.waiting.drop 1, waking := o.waking ++ o.waiting.take 1 } := by
  obtain ⟨waiting, waking, currMutex, timedOut⟩ := o
  cases waiting with
  | nil | cons i waiting => simp [CondHostObject.signal]

theorem Moved.signal (h : t.core = (s.setCond c (some (s.condAt c).signal)).core) :
    Moved s t c ((s.waitingOn c).take 1) := by
  rw [CondHostObject.signal_eq] at h
  exact .of_core h (take_append_drop 1 _).symm rfl

theorem Moved.broadcast (h : t.core = (s.setCond c (some (s.condAt c).broadcast)).core) : Moved s t c (s.waitingOn c) :=
  .of_core h (append_nil _).symm rfl

theorem Yields.queueing_waits {m : Nat} {rest}
    (h : Yields (s.setCond c (some ((s.condAt c).enqueue s.currentThread m))) b rest t) :
    Queueing s t [.waits s.currentThread c] := by
  obtain ⟨th, hth, hru, hcr⟩ := h
  refine .waits hth hru (fun c' => ?_) ?_
  · rw [waitingOn_of_core hcr]
    exact waitingOn_setCond _ c'
  · rw [wakingOn_of_core hcr]
    funext c'
    refine (wakingOn_setCond _ c').trans ?_
    split
    · rename_i hc
      rw [hc]
      rfl
    · rfl

theorem Woken.queueing (h : Woken s i b s₁)
    (hcr : t.core = (s₁.executes i th).core) (hcn : ∀ c d, b ≠ .condition c d) : Queueing s t [] := by
  have ht : t.condAt = s.condAt := by
    rw [condAt_of_core hcr]
    cases h with
    | signalled | timedOut => exact absurd rfl (hcn _ _)
    | _ => rfl
  refine .of_condAt fun c => ?_
  rw [ht]
  exact ⟨rfl, rfl⟩

theorem Woken.queueing_returns (h : Woken s i (.condition c none) s₁)
    (hcr : t.core = (s₁.executes i th).core) : Queueing s t [.returns i c] := by
  cases h with
  | @signalled _ _ o waking hc hfs =>
    have hat : s.condAt c = o := (setCond_condAt hc).1
    refine .returns (by rw [wakingOn, hat, hfs]) ?_ (fun c' => ?_)
    · rw [waitingOn_of_core hcr]
      funext c'
      refine (waitingOn_setCond _ c').trans ?_
      split
      · rename_i hc'
        rw [hc', waitingOn, hat]
        rfl
      · rfl
    · rw [wakingOn_of_core hcr]
      exact wakingOn_setCond _ c'

theorem Settled.context (h : Settled s i th) (hcn : ∀ c d, th.blockedBy.underlying ≠ .condition c d) :
    ∀ c m, th.hostContext ≠ .condWait c m := by
  intro c m hctx
  unfold Settled at h
  rw [hctx] at h
  split at h
  · cases h
  · cases h
  · rename_i c' d hbl
    exact hcn c' d hbl
  · obtain ⟨v, hv⟩ := h
    cases hv

def Undated (s : Environment) : Prop :=
  ∀ (i : Nat) (th : Thread), s.threads[i]? = some th → ∀ c d, th.blockedBy.underlying = .condition c d → d = none

theorem condEvents_resumed {ctx} {v} {clocks}
    (h : ∀ c m, ctx ≠ .condWait c m) : condEvents s (.schedule clocks) (.resumed ctx v) t = [] := by
  cases ctx with
  | condWait c m => exact absurd rfl (h c m)
  | _ => rfl

theorem Effect.queueing (h : Effect s r t call) (hinv : Inv s) (huna : Undated s) (hunt : s.Untimed call) :
    Queueing s t (condEvents s call r t) := by
  cases call with
  | pthreadCondInit c attr => exact .of_setCond h.2 rfl rfl
  | pthreadCondDestroy c =>
    rcases h with ⟨-, hcr⟩ | ⟨-, hwn, hwk, hcr⟩
    · exact .of_core hcr
    · exact .of_setCond hcr hwn.symm hwk.symm
  | pthreadCondWait c mutex =>
    rcases h with ⟨rfl, hcr⟩ | ⟨m, rfl, hyl⟩
    · exact .of_core hcr
    · exact hyl.queueing_waits
  | pthreadCondTimedwait => exact hunt.2.elim
  | pthreadCondSignal c =>
    rcases h with ⟨rfl, hcr⟩ | ⟨rfl, hcr⟩
    · exact .of_core hcr
    · exact .wakes (.signal hcr)
  | pthreadCondBroadcast c =>
    rcases h with ⟨rfl, hcr⟩ | ⟨rfl, hcr⟩
    · exact .of_core hcr
    · exact .wakes (.broadcast hcr)
  | schedule clocks =>
    rcases h with ⟨rfl, rfl⟩ | ⟨clock, i, th, v, s₁, -, -, hth, -, rfl, hwo, hcr⟩
    · exact .same rfl rfl
    · have hsd := hinv.settled i th hth
      by_cases hbl : ∃ c d, th.blockedBy = .condition c d
      · obtain ⟨c, d, hbl⟩ := hbl
        obtain rfl : d = none := huna i th hth c d (by rw [hbl]; rfl)
        rw [Settled, hbl] at hsd
        obtain ⟨o, m, -, -, -, hctx⟩ := hsd
        have hcu : t.currentThread = i := current_of_core hcr
        rw [hctx]
        change Queueing s t [.returns t.currentThread c]
        rw [hcu]
        rw [hbl] at hwo
        exact hwo.queueing_returns hcr
      · have hcn := fun c d hcd => hbl ⟨c, d, hcd⟩
        rw [condEvents_resumed (hsd.context fun c d => by
          rw [underlying_of_not_suspended hwo.threads_eq.2]
          exact hcn c d)]
        exact hwo.queueing hcr hcn
  | _ => exact .of_conds (h.frame.conds rfl)

def InPhase (s : Environment) (i : Nat) : CondVar.Phase Nat → Prop
  | .running => ∀ c, i ∉ s.waitingOn c ∧ i ∉ s.wakingOn c
  | .waiting c => i ∈ s.waitingOn c
  | .woken c => i ∈ s.wakingOn c

/-- Each thread is in at most one queue, once, and not while it executes. -/
structure Apart (s : Environment) : Prop where
  nodup : ∀ c, (s.waitingOn c ++ s.wakingOn c).Nodup
  one : ∀ i c c', (i ∈ s.waitingOn c ∨ i ∈ s.wakingOn c) → (i ∈ s.waitingOn c' ∨ i ∈ s.wakingOn c') → c' = c
  runs : ∀ i th, s.threads[i]? = some th → th.blockedBy = .notBlocked → ∀ c, i ∉ s.waitingOn c ∧ i ∉ s.wakingOn c

/-- The history of the threads fits the queues, and those who wait longer come first. -/
structure Waits (log : List (CondVar.Event Nat Nat)) (s : Environment) : Prop where
  phase : ∀ i, ∃ p, CondVar.phase i log = some p ∧ InPhase s i p
  since : ∀ c i, i ∈ s.waitingOn c ↔ ∃ n, CondVar.Since log i c n
  order : ∀ c, (s.waitingOn c).Pairwise fun i j => ∀ n m, CondVar.Since log i c n → CondVar.Since log j c m → n < m

theorem mem_queue (hinv : Inv s) : (i ∈ s.waitingOn c ∨ i ∈ s.wakingOn c) ↔
    ∃ th d, s.threads[i]? = some th ∧ th.blockedBy.underlying = .condition c d := by
  constructor
  · intro hi
    cases hc : s.conditionVariables c with
    | none => simp [waitingOn, wakingOn, condAt, hc] at hi
    | some o =>
      rw [waitingOn, wakingOn, (setCond_condAt hc).1] at hi
      exact hinv.queued c o hc i hi
  · rintro ⟨th, d, hth, hbl⟩
    have hsd := hinv.settled i th hth
    rw [Settled, hbl] at hsd
    obtain ⟨o, m, hc, -, hqu, -⟩ := hsd
    rw [waitingOn, wakingOn, (setCond_condAt hc).1]
    exact hqu

theorem Inv.apart (hinv : Inv s) : Apart s where
  nodup := fun c => by
    cases hc : s.conditionVariables c with
    | none => simp [waitingOn, wakingOn, condAt, hc]
    | some o =>
      rw [waitingOn, wakingOn, (setCond_condAt hc).1]
      exact hinv.nodup c o hc
  one := fun i c c' hc hc' => by
    obtain ⟨th, d, hth, hbl⟩ := (mem_queue hinv).mp hc
    obtain ⟨th', d', hth', hbl'⟩ := (mem_queue hinv).mp hc'
    rw [hth] at hth'
    cases hth'
    rw [hbl] at hbl'
    cases hbl'
    rfl
  runs := fun i th hth hru c => by
    rw [← not_or, mem_queue hinv]
    rintro ⟨th', d, hth', hbl⟩
    rw [hth] at hth'
    cases hth'
    rw [hru] at hbl
    cases hbl

theorem InPhase.congr (h : InPhase s i p) (hwn : ∀ c, i ∈ t.waitingOn c ↔ i ∈ s.waitingOn c)
    (hwk : ∀ c, i ∈ t.wakingOn c ↔ i ∈ s.wakingOn c) : InPhase t i p := by
  cases p with
  | running => exact fun c => ⟨fun hc => (h c).1 ((hwn c).mp hc), fun hc => (h c).2 ((hwk c).mp hc)⟩
  | waiting c => exact (hwn c).mpr h
  | woken c => exact (hwk c).mpr h

theorem InPhase.unique (hp : InPhase s i p) (hs : Apart s) (hq : InPhase s i q) : p = q := by
  have hbt : ∀ c c', i ∈ s.waitingOn c → i ∉ s.wakingOn c' := by
    intro c c' hc hc'
    obtain rfl := hs.one i c c' (.inl hc) (.inr hc')
    exact (nodup_append.mp (hs.nodup c')).2.2 i hc i hc' rfl
  cases p with
  | running =>
    cases q with
    | running => rfl
    | waiting c => exact absurd hq (hp c).1
    | woken c => exact absurd hq (hp c).2
  | waiting c =>
    cases q with
    | running => exact absurd hp (hq c).1
    | waiting c' => rw [hs.one i c c' (.inl hp) (.inl hq)]
    | woken c' => exact absurd hq (hbt c c' hp)
  | woken c =>
    cases q with
    | running => exact absurd hp (hq c).2
    | waiting c' => exact absurd hp (hbt c' c hq)
    | woken c' => rw [hs.one i c c' (.inr hp) (.inr hq)]

theorem InPhase.eq_iff (hp : InPhase s i p) (hs : Apart s) : p = q ↔ InPhase s i q :=
  ⟨fun hpq => hpq ▸ hp, fun hq => hp.unique hs hq⟩

section
variable (h : Waits log s) (hs : Apart s)
include h hs

theorem Waits.phase_eq (hp : InPhase s i p) : CondVar.phase i log = some p := by
  obtain ⟨q, hq, hin⟩ := h.phase i
  rw [hq, hp.unique hs hin]

omit hs in
/-- More has happened, to the threads that are named: they are where their events have brought them, and the others have
    stayed where they were. At most one new thread waits, at the end. -/
theorem Waits.extend {N : Nat → Prop} (hoh : ∀ i, ¬N i → ∀ e ∈ es, e.thread ≠ i)
    (hsty : ∀ i, ¬N i → ∀ c, (i ∈ t.waitingOn c ↔ i ∈ s.waitingOn c) ∧ (i ∈ t.wakingOn c ↔ i ∈ s.wakingOn c))
    (hphs : ∀ i, N i → ∃ p, CondVar.phase i (log ++ es) = some p ∧ InPhase t i p)
    (hsnc : ∀ c i, N i → (i ∈ t.waitingOn c ↔ ∃ n, CondVar.Since (log ++ es) i c n))
    (hod : ∀ c, ∃ l, l.Sublist (s.waitingOn c) ∧ (∀ i ∈ l, ¬N i) ∧ (t.waitingOn c = l ∨
      ∃ i, t.waitingOn c = l ++ [i] ∧ ∀ n, CondVar.Since (log ++ es) i c n → log.length ≤ n)) : Waits (log ++ es) t := by
  refine ⟨fun i => ?_, fun c i => ?_, fun c => ?_⟩
  · by_cases hi : N i
    · exact hphs i hi
    · obtain ⟨p, hp, hin⟩ := h.phase i
      refine ⟨p, ?_, hin.congr (fun c => (hsty i hi c).1) fun c => (hsty i hi c).2⟩
      rw [CondVar.phase_append_other (hoh i hi), hp]
  · by_cases hi : N i
    · exact hsnc c i hi
    · simp only [(hsty i hi c).1, CondVar.since_append_other (hoh i hi)]
      exact h.since c i
  · obtain ⟨l, hsub, hl, hls⟩ := hod c
    have hpi : l.Pairwise fun i j => ∀ n m, CondVar.Since (log ++ es) i c n → CondVar.Since (log ++ es) j c m → n < m := by
      refine ((h.order c).sublist hsub).imp_of_mem fun {i j} hi hj hij n m hn hm => ?_
      rw [CondVar.since_append_other (hoh i (hl i hi))] at hn
      rw [CondVar.since_append_other (hoh j (hl j hj))] at hm
      exact hij n m hn hm
    rcases hls with hls | ⟨j, hls, hnew⟩
    · rwa [hls]
    · rw [hls]
      refine pairwise_append.mpr ⟨hpi, pairwise_singleton _ _, fun i hi k hk n m hn hm => ?_⟩
      obtain rfl := mem_singleton.mp hk
      exact ((CondVar.since_append_other (hoh i (hl i hi))).mp hn).lt.trans_le (hnew m hm)

theorem Waits.waits (hth : s.threads[s.currentThread]? = some th) (hru : th.blockedBy = .notBlocked)
    (hwn : ∀ c', t.waitingOn c' = if c' = c then s.waitingOn c ++ [s.currentThread] else s.waitingOn c')
    (hwk : t.wakingOn = s.wakingOn) : Waits (log ++ [.waits s.currentThread c]) t := by
  have hout := hs.runs s.currentThread th hth hru
  have hmem : ∀ i c', i ∈ t.waitingOn c' ↔ i ∈ s.waitingOn c' ∨ (c' = c ∧ i = s.currentThread) := by
    intro i c'
    rw [hwn]
    split
    · rename_i hc
      simp [hc]
    · rename_i hc
      simp [hc]
  refine h.extend (N := (· = s.currentThread)) ?_ (fun i hi c' => ?_) ?_ ?_ fun c' => ?_
  · intro i hi e he
    rw [mem_singleton.mp he]
    exact Ne.symm hi
  · rw [hmem, hwk]
    simp [hi]
  · rintro _ rfl
    refine ⟨.waiting c, ?_, (hmem _ c).mpr (.inr ⟨rfl, rfl⟩)⟩
    rw [CondVar.phase_append, h.phase_eq hs (p := .running) hout]
    simp [CondVar.follow, CondVar.Event.thread, CondVar.Phase.next]
  · rintro c' _ rfl
    simp only [hmem, CondVar.since_append_waits, (hout c').1, false_or, and_true]
    refine ⟨fun hc => ⟨log.length, hc.symm, rfl⟩, ?_⟩
    rintro ⟨n, hc, -⟩
    exact hc.symm
  · refine ⟨s.waitingOn c', .refl _, fun i hi hcu => (hout c').1 (hcu ▸ hi), ?_⟩
    rw [hwn]
    split
    · rename_i hc
      refine .inr ⟨s.currentThread, by rw [hc], fun n hn => ?_⟩
      obtain ⟨-, rfl⟩ := (CondVar.since_append_waits c).mp hn
      exact Nat.le_refl _
    · exact .inl rfl

theorem Waits.wakes (hmo : Moved s t c is) : Waits (log ++ is.map (.wakes · c)) t := by
  have hnd : (is ++ t.waitingOn c).Nodup := hmo.waiting ▸ (nodup_append.mp (hs.nodup c)).1
  obtain ⟨hndi, -, hdsj⟩ := nodup_append.mp hnd
  have hin : ∀ i ∈ is, i ∈ s.waitingOn c := fun i hi => hmo.waiting ▸ mem_append_left _ hi
  have hmem : ∀ i c', i ∈ t.waitingOn c' ↔ i ∈ s.waitingOn c' ∧ i ∉ is := by
    intro i c'
    by_cases hc : c' = c
    · subst hc
      rw [hmo.waiting, mem_append]
      constructor
      · intro hi
        exact ⟨.inr hi, fun hi' => hdsj i hi' i hi rfl⟩
      · rintro ⟨hi | hi, hnot⟩
        · exact absurd hi hnot
        · exact hi
    · rw [(hmo.others c' hc).1]
      refine ⟨fun hi => ⟨hi, fun hi' => hc ?_⟩, And.left⟩
      exact hs.one i c c' (.inl (hin i hi')) (.inl hi)
  refine h.extend (N := (· ∈ is)) (fun i hi e he => ?_) (fun i hi c' => ⟨?_, ?_⟩) (fun i hi => ?_) (fun c' i hi => ?_) fun c' => ?_
  · obtain ⟨j, hj, rfl⟩ := mem_map.mp he
    exact fun hji => hi (hji ▸ hj)
  · rw [hmem]
    simp [hi]
  · by_cases hc : c' = c
    · subst hc
      rw [hmo.waking, mem_append]
      simp [hi]
    · rw [(hmo.others c' hc).2]
  · refine ⟨.woken c, CondVar.phase_append_wakes hndi hi (h.phase_eq hs (hin i hi)), ?_⟩
    change i ∈ t.wakingOn c
    rw [hmo.waking]
    exact mem_append_right _ hi
  · have hno : ∀ e ∈ is.map (CondVar.Event.wakes · c), ∀ c', e ≠ .waits i c' := by
      intro e he c'
      obtain ⟨j, -, rfl⟩ := mem_map.mp he
      exact nofun
    have hnot : ∀ n, ¬CondVar.Since (log ++ is.map (.wakes · c)) i c' n := fun n =>
      CondVar.not_since_append (mem_map.mpr ⟨i, hi, rfl⟩) rfl hno
    simp [hmem, hi, hnot]
  · refine ⟨t.waitingOn c', ?_, fun i hi => ((hmem i c').mp hi).2, .inl rfl⟩
    by_cases hc : c' = c
    · subst hc
      rw [hmo.waiting]
      exact sublist_append_right is _
    · rw [(hmo.others c' hc).1]

theorem Waits.returns (hfs : s.wakingOn c = i :: rest)
    (hwn : t.waitingOn = s.waitingOn) (hwk : ∀ c', t.wakingOn c' = if c' = c then rest else s.wakingOn c') :
    Waits (log ++ [.returns i c]) t := by
  have hin : i ∈ s.wakingOn c := by
    rw [hfs]
    exact mem_cons_self
  have hrs : i ∉ rest := by
    have hnd := (nodup_append.mp (hs.nodup c)).2.1
    rw [hfs] at hnd
    exact (nodup_cons.mp hnd).1
  have hout : ∀ c', i ∉ s.waitingOn c' := by
    intro c' hi
    obtain rfl := hs.one i c c' (.inr hin) (.inl hi)
    exact (nodup_append.mp (hs.nodup c')).2.2 i hi i hin rfl
  refine h.extend (N := (· = i)) (fun j hj e he => ?_) (fun j hj c' => ⟨by rw [hwn], ?_⟩) ?_ ?_ fun c' => ?_
  · rw [mem_singleton.mp he]
    exact Ne.symm hj
  · rw [hwk]
    split
    · rename_i hc
      simp [hc, hfs, hj]
    · rfl
  · rintro j rfl
    refine ⟨.running, ?_, fun c' => ⟨hwn ▸ hout c', ?_⟩⟩
    · rw [CondVar.phase_append, h.phase_eq hs (p := .woken c) hin]
      simp [CondVar.follow, CondVar.Event.thread, CondVar.Phase.next]
    · rw [hwk]
      split
      · exact hrs
      · rename_i hc
        exact fun hj => hc (hs.one j c c' (.inr hin) (.inr hj))
  · rintro c' j rfl
    have hno : ∀ e ∈ [CondVar.Event.returns j c], ∀ c', e ≠ .waits j c' := by
      intro e he c'
      rw [mem_singleton.mp he]
      rintro ⟨⟩
    have hnot : ∀ n, ¬CondVar.Since (log ++ [.returns j c]) j c' n := fun n =>
      CondVar.not_since_append mem_cons_self rfl hno
    simp [hwn, hout c', hnot]
  · exact ⟨s.waitingOn c', .refl _, fun j hj hji => hout c' (hji ▸ hj), .inl (by rw [hwn])⟩

end

theorem Queueing.waits_append (hq : Queueing s t es) (h : Waits log s) (hs : Apart s) : Waits (log ++ es) t := by
  cases hq with
  | same hwn hwk =>
    rw [append_nil]
    refine ⟨fun i => ?_, hwn ▸ h.since, hwn ▸ h.order⟩
    obtain ⟨p, hp, hin⟩ := h.phase i
    exact ⟨p, hp, hin.congr (fun c => by rw [hwn]) (fun c => by rw [hwk])⟩
  | waits hth hru hwn hwk => exact h.waits hs hth hru hwn hwk
  | wakes hmo => exact h.wakes hs hmo
  | returns hfs hwn hwk => exact h.returns hs hfs hwn hwk

theorem Call.mayBlock.undated (h : call.mayBlock b) (hunt : s.Untimed call) :
    ∀ c d, b.underlying = .condition c d → d = none := by
  intro c d hb
  rw [underlying_of_not_suspended h.unsuspended] at hb
  subst hb
  cases d with
  | none => rfl
  | some d =>
    cases call with
    | pthreadCondTimedwait => exact hunt.2.elim
    | _ => exact h.elim

theorem Moves.undated (hmv : Moves s t call) (h : Undated s) (hunt : s.Untimed call) : Undated t := by
  refine hmv.forall_blocks (by rintro _ _ ⟨⟩) (fun b hmay => hmay.undated hunt) ?_ ?_ h
  · intro i b _ hb
    rwa [underlying_suspend]
  · intro i count previous _ hb
    rwa [underlying_resume]

section
variable {mem : Nat → UInt8} {fileStreams : Nat → Option FileLock} (h : Logs Environment.call Untimed condEvents (start mem fileStreams) log s)
include h

theorem waits_of_logs : Inv s ∧ Undated s ∧ Waits log s := by
  refine h.invariant (P := fun log s => Inv s ∧ Undated s ∧ Waits log s) ⟨.start mem fileStreams, ?_, ?_⟩ ?_
  · intro i th hi c d hbl
    have hsd := (Inv.start mem fileStreams).settled i th hi
    rw [Settled, hbl] at hsd
    obtain ⟨o, m, hau, -⟩ := hsd
    cases hau
  · exact ⟨fun i => ⟨.running, rfl, fun c => ⟨not_mem_nil, not_mem_nil⟩⟩,
      fun c i => ⟨fun hi => absurd hi not_mem_nil, fun hn => by obtain ⟨n, hn, -⟩ := hn; cases hn⟩,
      fun c => .nil⟩
  · rintro log s t call r ⟨hinv, huna, hwt⟩ hunt hcl
    have hef := hinv.effect hcl
    exact ⟨hinv.steps (hinv.call_steps hcl), hef.moves.undated huna hunt,
      (hef.queueing hinv huna hunt).waits_append hwt hinv.apart⟩

/-- What waits, signals and broadcasts come to, after the history `log`. -/
structure CondSafe (log : List (CondVar.Event Nat Nat)) (s : Environment) : Prop where
  /-- A thread is in a queue exactly while it is blocked on the variable, suspended or not. -/
  queued : ∀ c i, (i ∈ s.waitingOn c ∨ i ∈ s.wakingOn c) ↔
    ∃ th d, s.threads[i]? = some th ∧ th.blockedBy.underlying = .condition c d
  /-- It is in one of the two, once. -/
  once : ∀ c, (s.waitingOn c ++ s.wakingOn c).Nodup
  /-- A signal goes to the thread that has waited longest, if one waits. -/
  signal : ∀ c t, s.call (.pthreadCondSignal c) = .ok (.returned 0, t) →
    (s.waitingOn c = [] ∧ Moved s t c []) ∨ ∃ i, CondVar.Longest log i c ∧ Moved s t c [i]
  /-- A broadcast goes to all. -/
  broadcast : ∀ c t, s.call (.pthreadCondBroadcast c) = .ok (.returned 0, t) → Moved s t c (s.waitingOn c)
  /-- The events of each thread are waits, wake-ups and returns in turn. -/
  turns : ∀ i, (CondVar.phase i log).isSome
  /-- Every wake-up was given to a wait of its own, and every wait that has had none is in the queue. -/
  waits : ∀ i c, log.count (.waits i c) = log.count (.wakes i c) + if i ∈ s.waitingOn c then 1 else 0
  /-- Every return has had a wake-up of its own, and every wake-up that was not returned from is in the queue. -/
  returns : ∀ i c, log.count (.wakes i c) = log.count (.returns i c) + if i ∈ s.wakingOn c then 1 else 0

omit h in
theorem Waits.longest (h : Waits log s) (hfs : s.waitingOn c = i :: rest) : CondVar.Longest log i c := by
  have hin : i ∈ s.waitingOn c := by
    rw [hfs]
    exact mem_cons_self
  obtain ⟨n, hn⟩ := (h.since c i).mp hin
  refine ⟨n, hn, fun j m hm => ?_⟩
  have hj := (h.since c j).mpr ⟨m, hm⟩
  have hod := h.order c
  rw [hfs] at hj hod
  rcases mem_cons.mp hj with rfl | hj
  · -- A thread waits since one point only.
    rcases Nat.lt_or_ge m n with hlt | hge
    · exact absurd rfl (hm.2 n _ hlt hn.1)
    · exact hge
  · exact Nat.le_of_lt ((pairwise_cons.mp hod).1 j hj n m hn hm)

/-- In every run without deadlines the queues, the blocks and the returns of the threads belong together. -/
theorem condSafe_of_logs : CondSafe log s := by
  obtain ⟨hinv, -, hwaits⟩ := waits_of_logs h
  have hs := hinv.apart
  exact {
    queued := fun c i => mem_queue hinv
    once := hs.nodup
    signal := fun c t hcall => by
      rcases hinv.effect hcall with ⟨habsurd, -⟩ | ⟨-, hcore⟩
      · cases habsurd
      · have hmoved := Moved.signal hcore
        cases hfirst : s.waitingOn c with
        | nil =>
          rw [hfirst] at hmoved
          exact .inl ⟨rfl, hmoved⟩
        | cons i rest =>
          rw [hfirst] at hmoved
          exact .inr ⟨i, hwaits.longest hfirst, hmoved⟩
    broadcast := fun c t hcall => by
      rcases hinv.effect hcall with ⟨habsurd, -⟩ | ⟨-, hcore⟩
      · cases habsurd
      · exact .broadcast hcore
    turns := fun i => by
      obtain ⟨p, hp, -⟩ := hwaits.phase i
      rw [hp]
      rfl
    waits := fun i c => by
      obtain ⟨p, hp, hin⟩ := hwaits.phase i
      rw [(CondVar.counts hp c).1]
      exact congrArg _ (if_congr (hin.eq_iff hs) rfl rfl)
    returns := fun i c => by
      obtain ⟨p, hp, hin⟩ := hwaits.phase i
      rw [(CondVar.counts hp c).2]
      exact congrArg _ (if_congr (hin.eq_iff hs) rfl rfl) }

end
end

def twoWait : List Call :=
  [.newThread, .newThread, .interrupt, .schedule [⟨id, id⟩], .pthreadMutexLock 16, .pthreadCondWait 64 16,
    .schedule [⟨id, id⟩], .pthreadMutexLock 16, .pthreadCondWait 64 16, .schedule [⟨id, id⟩]]

/-- The first of them has been signalled. -/
theorem condSafe_of_logs_signalled : ∃ log s, Logs call Untimed condEvents (start staticMem fun _ => none) log s ∧
    s.wakingOn 64 = [1] ∧ s.waitingOn 64 = [2] ∧ log.count (.wakes 1 64) = log.count (.returns 1 64) + 1 ∧
    log.count (.waits 2 64) = log.count (.wakes 2 64) + 1 := by
  obtain ⟨s, hrun, hwaking, hwaiting⟩ : ∃ s, Runs call Untimed (start staticMem fun _ => none) s ∧
      s.wakingOn 64 = [1] ∧ s.waitingOn 64 = [2] :=
    ⟨_, .exec (twoWait ++ [.pthreadCondSignal 64]) .start rfl, rfl, rfl⟩
  obtain ⟨log, hlog⟩ : ∃ log, Logs call Untimed condEvents (start staticMem fun _ => none) log s := Logs.of_runs hrun
  have hsafe := condSafe_of_logs hlog
  refine ⟨log, s, hlog, hwaking, hwaiting, ?_, ?_⟩
  · rw [hsafe.returns 1 64, hwaking]
    rfl
  · rw [hsafe.waits 2 64, hwaiting]
    rfl

/-! ### Threads behind a suspended one -/

def Awake (i : Nat) : Prop := ∃ th, s.threads[i]? = some th ∧ th.active = true ∧ th.blockedBy.isSuspended = false

/-- The scheduler ends the wait of the thread when it looks at it. -/
def Eligible (clock : Clock) (i : Nat) : Prop := ∃ env, s.examine clock i = .ok (.scheduled env)

/-- The thread is about to be woken on the condition variable, and its mutex is free. -/
structure Due (s : Environment) (c i : Nat) (o : CondHostObject) : Prop where
  cond : s.conditionVariables c = some o
  free : ∃ m x, o.currMutex = some m ∧ s.mutexState.mutexes m = some x ∧ x.locked = none
  waking : i ∈ o.waking

/-- No thread that is due is kept waiting by a thread that is suspended. -/
def Unobstructed : Prop := ∀ c i o, Due s c i o → s.Awake i → ∀ clock,
    s.Eligible clock i ∨ ∃ j, [j, i].Sublist o.waking ∧ s.Awake j ∧ s.Eligible clock j

/-- If a thread is due, the first of those that are about to be woken with it is not suspended. -/
def FrontAwake : Prop := ∀ c i o, Due s c i o → s.Awake i → ∀ j th, o.waking.head? = some j → s.threads[j]? = some th →
    th.blockedBy.isSuspended = false

section
variable {s : Environment} {c i : Nat} {o : CondHostObject} {clock : Clock} {th : Thread}

theorem Due.blocked (h : Due s c i o) (hinv : Inv s) (hth : s.threads[i]? = some th)
    (haw : th.blockedBy.isSuspended = false) : ∃ d, th.blockedBy = .condition c d := by
  obtain ⟨th', d, hth', hbl⟩ := hinv.queued c o h.cond i (.inr h.waking)
  rw [hth] at hth'
  cases hth'
  rw [underlying_of_not_suspended haw] at hbl
  exact ⟨d, hbl⟩

theorem Eligible.front (h : s.Eligible clock i) (hinv : Inv s) (hdue : Due s c i o) (haw : s.Awake i) :
    o.waking.head? = some i := by
  obtain ⟨th, hth, hac, hup⟩ := haw
  obtain ⟨d, hbl⟩ := hdue.blocked hinv hth hup
  obtain ⟨m, x, hm, -, -⟩ := hdue.free
  obtain ⟨env, henv⟩ := h
  cases (examine_ends s clock i).ok henv with
  | scheduled hry =>
    simp only [ready, hth, hac, hbl, hdue.cond, hm, Option.any_some, Bool.true_and, Bool.and_eq_true,
      Bool.or_eq_true, decide_eq_true_eq, List.isEmpty_iff] at hry
    rcases hry.2 with hfs | ⟨hem, -⟩
    · exact hfs
    · have hin := hdue.waking
      rw [hem] at hin
      cases hin

theorem Due.eligible (hdue : Due s c i o) (hinv : Inv s) (hlv : Live s) (hfs : o.waking.head? = some i)
    (hth : s.threads[i]? = some th) (hup : th.blockedBy.isSuspended = false) (clock : Clock) :
    s.Awake i ∧ s.Eligible clock i := by
  obtain ⟨d, hbl⟩ := hdue.blocked hinv hth hup
  obtain ⟨m, x, hm, hx, hfr⟩ := hdue.free
  have hac : th.active = true := by
    cases hend : th.active with
    | true => rfl
    | false =>
      have hidl := hlv.ended i th hth hend
      rw [hbl] at hidl
      cases hidl
  refine ⟨⟨th, hth, hac, hup⟩, ?_⟩
  have hul : s.mutexState.mutexIsLocked m = false := by
    simp [MutexState.mutexIsLocked, hx, hfr]
  have htr : s.thread i = .ok th := by
    simp [thread, hth]
  have hcn : s.hostCond c = .ok o := by
    simp [hostCond, hdue.cond]
  unfold Eligible examine examineCondition
  simp only [htr, ok_bind, hac, Bool.not_true, Bool.false_eq_true, if_false, hbl, hcn, hm, hfs, hul,
    decide_true, Bool.not_false, Bool.and_true, if_true]
  exact unblock_relock_free hth hx hfr

end

/-- In every run: no thread is kept waiting behind a suspended one exactly as long as none is at the head of the queue
    while another one could go on. -/
theorem unobstructed_iff {mem : Nat → UInt8} {fileStreams : Nat → Option FileLock} {s : Environment}
    (h : Runs call Enabled (start mem fileStreams) s) : s.Unobstructed ↔ s.FrontAwake := by
  obtain ⟨hinv, hlive⟩ := live_of_runs h
  constructor
  · intro hfree c i o hdue hawake j th hfirst hth
    obtain ⟨k, hk, thk, hthk, -, hunsuspended⟩ : ∃ k, o.waking.head? = some k ∧ s.Awake k := by
      rcases hfree c i o hdue hawake ⟨id, id⟩ with heligible | ⟨k, hsub, hawakek, heligible⟩
      · exact ⟨i, heligible.front hinv hdue hawake, hawake⟩
      · have hduek : Due s c k o := ⟨hdue.cond, hdue.free, hsub.subset mem_cons_self⟩
        exact ⟨k, heligible.front hinv hduek hawakek, hawakek⟩
    rw [hfirst] at hk
    cases hk
    rw [hth] at hthk
    cases hthk
    exact hunsuspended
  · intro hfront c i o hdue hawake clock
    obtain ⟨j, rest, hwaking⟩ : ∃ j rest, o.waking = j :: rest := by
      cases hwaking : o.waking with
      | nil =>
        have hin := hdue.waking
        rw [hwaking] at hin
        cases hin
      | cons j rest => exact ⟨j, rest, rfl⟩
    have hfirst : o.waking.head? = some j := by rw [hwaking]; rfl
    have hduej : Due s c j o := ⟨hdue.cond, hdue.free, by rw [hwaking]; exact mem_cons_self⟩
    obtain ⟨th, d, hth, -⟩ := hinv.queued c o hdue.cond j (.inr hduej.waking)
    obtain ⟨hawakej, heligible⟩ := hduej.eligible hinv hlive hfirst hth (hfront c i o hdue hawake j th hfirst hth) clock
    have hin := hdue.waking
    rw [hwaking] at hin
    rcases mem_cons.mp hin with rfl | hin
    · exact .inl heligible
    · refine .inr ⟨j, ?_, hawakej, heligible⟩
      rw [hwaking]
      exact .cons_cons j (singleton_sublist.mpr hin)

/-- Threads 1 and 2 are about to be woken, and neither is suspended. -/
theorem unobstructed_iff_awake : ∃ s, Runs call Enabled (start staticMem fun _ => none) s ∧ s.wakingOn 64 = [1, 2] ∧
    s.Unobstructed := by
  obtain ⟨s, hrun, hwaking, hawake⟩ : ∃ s, Runs call Enabled (start staticMem fun _ => none) s ∧ s.wakingOn 64 = [1, 2] ∧
      (s.threads.all fun th => !th.blockedBy.isSuspended) = true :=
    ⟨_, .exec (twoWait ++ [.pthreadCondBroadcast 64]) .start rfl, rfl, rfl⟩
  refine ⟨s, hrun, hwaking, (unobstructed_iff hrun).mpr fun c i o _ _ j th _ hth => ?_⟩
  have hth := all_eq_true.mp hawake th (mem_of_getElem? hth)
  simpa using hth

/-- Thread 2 has been signalled and its mutex is free, but thread 1 was signalled first and is suspended. -/
theorem behind_suspended : ∃ s, Runs call Enabled (start staticMem fun _ => none) s ∧ ¬s.Unobstructed := by
  obtain ⟨s, o, x, hrun, hthread₁, hthread₂, hcond, hwaking, hmutex, hx, hfree⟩ : ∃ s o x,
      Runs call Enabled (start staticMem fun _ => none) s ∧
      s.threads[1]? = some ⟨true, .suspended 1 (.condition 64 none), none, .condWait 64 0⟩ ∧
      s.threads[2]? = some ⟨true, .condition 64 none, none, .condWait 64 0⟩ ∧ s.conditionVariables 64 = some o ∧
      o.waking = [1, 2] ∧ o.currMutex = some 0 ∧ s.mutexState.mutexes 0 = some x ∧ x.locked = none :=
    ⟨_, _, _, .exec (twoWait ++ [.pthreadCondBroadcast 64, .suspendThread 1]) .start rfl, rfl, rfl, rfl, rfl, rfl, rfl, rfl⟩
  refine ⟨s, hrun, fun hfree' => ?_⟩
  have hdue : Due s 64 2 o := ⟨hcond, ⟨0, x, hmutex, hx, hfree⟩, by simp [hwaking]⟩
  have hinv := (live_of_runs hrun).1
  have hawake : s.Awake 2 := ⟨_, hthread₂, rfl, rfl⟩
  rcases hfree' 64 2 o hdue hawake ⟨id, id⟩ with heligible | ⟨j, hsub, hawakej, -⟩
  · have hfirst := heligible.front hinv hdue hawake
    rw [hwaking] at hfirst
    cases hfirst
  · rw [hwaking] at hsub
    cases hsub.eq_of_length rfl
    obtain ⟨th, hth, -, hunsuspended⟩ := hawakej
    rw [hthread₁] at hth
    cases hth
    cases hunsuspended

end TouchHLE.Environment
