import TouchHLE.Objc.Synchronization
import TouchHLE.Theorems.Environment.Exclusion
import TouchHLE.Theorems.Environment.Steady

/-! `@synchronized` blocks. The map from objects to mutexes, the table of mutexes and the blocks of the threads are kept
    together by one invariant: an object has a mutex exactly while a thread is inside a block of it or waits to enter one. -/

namespace TouchHLE.Objc.SyncState
open Lib List Option Function
open Environment (Mutex Steady Panic)

/-- A thread comes back from `objc_sync_enter`, or calls `objc_sync_exit`. -/
inductive SyncEvent where
  | entered (obj thread : Nat)
  | exited (obj thread : Nat)
deriving DecidableEq

def SyncEvent.obj : SyncEvent → Nat
  | .entered obj _ | .exited obj _ => obj

def syncEvents (s : SyncState) (call : Call) (r : Result) (t : SyncState) : List SyncEvent :=
  match call, r with
  | .enter obj, .returned _ => [.entered obj s.env.currentThread]
  | .exit obj, .returned _ => [.exited obj s.env.currentThread]
  | .other _, .entered obj => [.entered obj t.env.currentThread]
  | _, _ => []

def Inside (log : List SyncEvent) (obj i : Nat) : Prop := log.count (.exited obj i) < log.count (.entered obj i)

instance (log : List SyncEvent) (obj i : Nat) : Decidable (Inside log obj i) := inferInstanceAs (Decidable (_ < _))

/-- What threads do besides: they come and go, sleep and are interrupted. -/
def Concurrent : Environment.Call → Prop
  | .newThread | .exitThread _ | .sleep _ _ | .interrupt | .schedule _ => True
  | _ => False

instance (call : Environment.Call) : Decidable (Concurrent call) := by
  apply Environment.Call.casesOn (motive := fun call => Decidable (Concurrent call)) call <;> intros <;>
    first | exact instDecidableTrue | exact instDecidableFalse

/-- Threads leave the blocks that they are inside of. -/
def Nested (s : List SyncEvent × SyncState) : Call → Prop
  | .enter _ => s.2.env.executing = true
  | .exit obj => s.2.env.executing = true ∧ Inside s.1 obj s.2.env.currentThread
  | .other call => s.2.env.Enabled call ∧ Concurrent call

instance (s : List SyncEvent × SyncState) (call : Call) : Decidable (Nested s call) := by
  cases call with
  | enter => exact inferInstanceAs (Decidable (_ = _))
  | exit | other => exact instDecidableAnd

def levelOf (s : SyncState) (obj i : Nat) : Nat :=
  ((s.syncMutexes obj).bind s.env.mutexState.mutexes).elim 0 fun x => x.level fun j => decide (j = i)

structure Tables (s : SyncState) : Prop where
  inj : ∀ obj obj' m, s.syncMutexes obj = some m → s.syncMutexes obj' = some m → obj = obj'
  /-- The mutex of an object is there, and one that nobody holds is waited for. -/
  live : ∀ obj m, s.syncMutexes obj = some m →
    ∃ x, s.env.mutexState.mutexes m = some x ∧ x.type = .recursive ∧ (x.locked = none → 0 < x.waitingCount)
  owned : ∀ m x, s.env.mutexState.mutexes m = some x → ∃ obj, s.syncMutexes obj = some m

/-- The threads that are in the middle of `objc_sync_enter` are those that are blocked on a mutex. -/
structure Blocked (s : SyncState) : Prop where
  reentry : ∀ i rest, s.entering i = some rest → ∃ obj, rest = .reentry obj
  waits : ∀ i obj, s.entering i = some (.reentry obj) ↔ ∃ m, s.syncMutexes obj = some m ∧ s.env.waitsFor i = .mutex m

/-- The mutexes count what threads have entered and not yet left. -/
def Balanced (log : List SyncEvent) (s : SyncState) : Prop :=
  ∀ obj i, log.count (.entered obj i) = log.count (.exited obj i) + s.levelOf obj i

structure SyncInv (log : List SyncEvent) (s : SyncState) : Prop where
  steady : Steady s.env
  tables : Tables s
  blocked : Blocked s
  balanced : Balanced log s

inductive Change (s t : SyncState) : List SyncEvent → Prop where
  | same (map : t.syncMutexes = s.syncMutexes) (mutexes : t.env.mutexState.mutexes = s.env.mutexState.mutexes) : Change s t []
  | mutex {obj m : Nat} {x y : Mutex} {es : List SyncEvent} (mapped : s.syncMutexes obj = some m)
      (present : s.env.mutexState.mutexes m = some x) (map : t.syncMutexes = s.syncMutexes)
      (mutexes : t.env.mutexState.mutexes = update s.env.mutexState.mutexes m (some y)) (type : y.type = x.type)
      (wanted : y.locked = none → 0 < y.waitingCount) (about : ∀ e ∈ es, e.obj = obj)
      (levels : ∀ i, (x.level fun j => decide (j = i)) + es.count (.entered obj i) =
        es.count (.exited obj i) + y.level fun j => decide (j = i)) : Change s t es
  | created {obj m i : Nat} (unmapped : s.syncMutexes obj = none) (absent : s.env.mutexState.mutexes m = none)
      (map : t.syncMutexes = update s.syncMutexes obj (some m)) (mutexes : t.env.mutexState.mutexes =
        update s.env.mutexState.mutexes m (some (.heldBy ⟨.recursive, 0, none⟩ i))) :
      Change s t [.entered obj i]
  | destroyed {obj m i : Nat} {x : Mutex} {n : Mem.NonZeroU32} (mapped : s.syncMutexes obj = some m)
      (present : s.env.mutexState.mutexes m = some x) (held : x.locked = some (i, n)) (once : n.get = 1)
      (map : t.syncMutexes = update s.syncMutexes obj none)
      (mutexes : t.env.mutexState.mutexes = update s.env.mutexState.mutexes m none) : Change s t [.exited obj i]

section
variable {s t : SyncState} {log es : List SyncEvent} {obj i m : Nat} {x : Mutex}
variable {y : Mutex} {n : Mem.NonZeroU32} {c : Environment.Call} {env : Environment} {r : Result}

theorem levelOf_mapped (hmp : s.syncMutexes obj = some m) (hx : s.env.mutexState.mutexes m = some x) (i : Nat) :
    s.levelOf obj i = x.level fun j => decide (j = i) := by
  rw [levelOf, hmp, bind_some, hx]
  rfl

theorem levelOf_unmapped (hunm : s.syncMutexes obj = none) (i : Nat) : s.levelOf obj i = 0 := by
  rw [levelOf, hunm]
  rfl

theorem Change.tables (hcg : Change s t es) (h : Tables s) : Tables t := by
  cases hcg with
  | same hmap hmt =>
    exact ⟨hmap ▸ h.inj, by rw [hmap, hmt]; exact h.live, by rw [hmap, hmt]; exact h.owned⟩
  | @mutex obj m x y _ hmp hx hmap hmt hty hwe =>
    refine ⟨hmap ▸ h.inj, fun obj' m' hmp' => ?_, fun m' x' hx' => ?_⟩
    · rw [hmap] at hmp'
      obtain ⟨x', hx', hty', hwe'⟩ := h.live obj' m' hmp'
      rw [hmt, update_apply]
      split
      · rename_i hm
        rw [hm, hx] at hx'
        cases hx'
        exact ⟨y, rfl, hty.trans hty', hwe⟩
      · exact ⟨x', hx', hty', hwe'⟩
    · rw [hmt, update_apply] at hx'
      rw [hmap]
      split at hx'
      · rename_i hm
        exact ⟨obj, hm ▸ hmp⟩
      · exact h.owned m' x' hx'
  | @created obj m i hunm hab hmap hmt =>
    -- No object had the mutex before it was created.
    have hnew : ∀ obj', s.syncMutexes obj' ≠ some m := by
      intro obj' hmp'
      obtain ⟨x', hx', -⟩ := h.live obj' m hmp'
      rw [hab] at hx'
      cases hx'
    refine ⟨fun obj₁ obj₂ m' h₁ h₂ => ?_, fun obj' m' hmp' => ?_, fun m' x' hx' => ?_⟩
    · rw [hmap, update_apply] at h₁ h₂
      split at h₁ <;> split at h₂
      · rename_i ho₁ ho₂
        rw [ho₁, ho₂]
      · cases h₁
        exact absurd h₂ (hnew obj₂)
      · cases h₂
        exact absurd h₁ (hnew obj₁)
      · exact h.inj obj₁ obj₂ m' h₁ h₂
    · rw [hmap, update_apply] at hmp'
      rw [hmt, update_apply]
      split at hmp'
      · cases hmp'
        rw [if_pos rfl]
        exact ⟨_, rfl, rfl, nofun⟩
      · rw [if_neg fun hm : m' = m => hnew obj' (hm ▸ hmp')]
        exact h.live obj' m' hmp'
    · rw [hmt, update_apply] at hx'
      rw [hmap]
      split at hx'
      · rename_i hm
        exact ⟨obj, by rw [update_self, hm]⟩
      · obtain ⟨obj', hmp'⟩ := h.owned m' x' hx'
        refine ⟨obj', ?_⟩
        rw [update_of_ne, hmp']
        rintro rfl
        rw [hunm] at hmp'
        cases hmp'
  | @destroyed obj m i x n hmp hx hhl honc hmap hmt =>
    have hold : ∀ obj' m', t.syncMutexes obj' = some m' → s.syncMutexes obj' = some m' ∧ m' ≠ m := by
      intro obj' m' hmp'
      rw [hmap, update_apply] at hmp'
      split at hmp'
      · cases hmp'
      · rename_i hobj
        refine ⟨hmp', ?_⟩
        rintro rfl
        exact hobj (h.inj obj' obj m' hmp' hmp)
    refine ⟨fun obj₁ obj₂ m' h₁ h₂ => h.inj obj₁ obj₂ m' (hold _ _ h₁).1 (hold _ _ h₂).1,
      fun obj' m' hmp' => ?_, fun m' x' hx' => ?_⟩
    · obtain ⟨hmp', hm⟩ := hold obj' m' hmp'
      rw [hmt, update_of_ne hm]
      exact h.live obj' m' hmp'
    · rw [hmt, update_apply] at hx'
      split at hx'
      · cases hx'
      · rename_i hm
        obtain ⟨obj', hmp'⟩ := h.owned m' x' hx'
        refine ⟨obj', ?_⟩
        rw [hmap, update_of_ne, hmp']
        rintro rfl
        rw [hmp] at hmp'
        cases hmp'
        exact hm rfl

/-- Only the events of the object count for it. -/
theorem count_about (hat : ∀ e ∈ es, e.obj = obj) {obj' : Nat} (hobj : obj' ≠ obj) (i : Nat) :
    es.count (.entered obj' i) = 0 ∧ es.count (.exited obj' i) = 0 :=
  ⟨count_eq_zero.mpr fun he => hobj (hat _ he), count_eq_zero.mpr fun he => hobj (hat _ he)⟩

theorem Balanced.append (h : Balanced log s) (hat : ∀ e ∈ es, e.obj = obj)
    (hobj : ∀ i, s.levelOf obj i + es.count (.entered obj i) = es.count (.exited obj i) + t.levelOf obj i)
    (hoh : ∀ obj', obj' ≠ obj → ∀ i, t.levelOf obj' i = s.levelOf obj' i) : Balanced (log ++ es) t := by
  intro obj' i
  have hold := h obj' i
  rw [count_append, count_append]
  by_cases hsm : obj' = obj
  · subst hsm
    have hnew := hobj i
    omega
  · obtain ⟨hene, hexi⟩ := count_about hat hsm i
    rw [hene, hexi, hoh obj' hsm]
    exact hold

theorem Change.balanced (hcg : Change s t es) (htab : Tables s) (h : Balanced log s) : Balanced (log ++ es) t := by
  have hll : ∀ {obj' obj m : Nat} {y : Option Mutex}, s.syncMutexes obj = some m ∨ s.env.mutexState.mutexes m = none →
      obj' ≠ obj → t.syncMutexes obj' = s.syncMutexes obj' →
      t.env.mutexState.mutexes = update s.env.mutexState.mutexes m y → ∀ i, t.levelOf obj' i = s.levelOf obj' i := by
    intro obj' obj m y hm hobj hmap hmt i
    rw [levelOf, levelOf, hmap]
    cases hmp' : s.syncMutexes obj' with
    | none => rfl
    | some m' =>
      have hne : m' ≠ m := by
        rintro rfl
        rcases hm with hmp | hab
        · exact hobj (htab.inj obj' obj m' hmp' hmp)
        · obtain ⟨x', hx', -⟩ := htab.live obj' m' hmp'
          rw [hab] at hx'
          cases hx'
      rw [bind_some, bind_some, hmt, update_of_ne hne]
  cases hcg with
  | same hmap hmt =>
    rw [append_nil]
    intro obj i
    rw [levelOf, hmap, hmt]
    exact h obj i
  | @mutex obj m x y _ hmp hx hmap hmt _ _ hat hlvl =>
    refine h.append hat (fun i => ?_) fun obj' hobj => hll (.inl hmp) hobj (by rw [hmap]) hmt
    rw [levelOf_mapped hmp hx, levelOf_mapped (hmap ▸ hmp) (by rw [hmt, update_self])]
    exact hlvl i
  | @created obj m i hunm hab hmap hmt =>
    have hat : ∀ e ∈ [SyncEvent.entered obj i], e.obj = obj := by simp [SyncEvent.obj]
    refine h.append hat (fun j => ?_) fun obj' hobj =>
      hll (.inr hab) hobj (by rw [hmap, update_of_ne hobj]) hmt
    rw [levelOf_unmapped hunm, levelOf_mapped (by rw [hmap, update_self]) (by rw [hmt, update_self])]
    by_cases hj : j = i
    · simp [Mutex.level, Mutex.heldBy, hj]
    · simp [Mutex.level, Mutex.heldBy, Ne.symm hj]
  | @destroyed obj m i x n hmp hx hhl honc hmap hmt =>
    have hat : ∀ e ∈ [SyncEvent.exited obj i], e.obj = obj := by simp [SyncEvent.obj]
    refine h.append hat (fun j => ?_) fun obj' hobj =>
      hll (.inl hmp) hobj (by rw [hmap, update_of_ne hobj]) hmt
    rw [levelOf_mapped hmp hx, levelOf_unmapped (by rw [hmap, update_self])]
    by_cases hj : j = i
    · simp [Mutex.level, hhl, honc, hj]
    · simp [Mutex.level, hhl, Ne.symm hj]

theorem Blocked.congr (h : Blocked s) (het : t.entering = s.entering)
    (hsm : ∀ i obj, (∃ m, t.syncMutexes obj = some m ∧ t.env.waitsFor i = .mutex m) ↔
      ∃ m, s.syncMutexes obj = some m ∧ s.env.waitsFor i = .mutex m) : Blocked t where
  reentry := het ▸ h.reentry
  waits := fun i obj => by rw [het, hsm, h.waits]

theorem Blocked.update {b} {rest} (h : Blocked s)
    (hmap : t.syncMutexes = s.syncMutexes) (hwt : ∀ j, t.env.waitsFor j = if j = i then b else s.env.waitsFor j)
    (het : t.entering = update s.entering i rest) (hrnt : ∀ e, rest = some e → ∃ obj, e = .reentry obj)
    (hrs : ∀ obj, rest = some (.reentry obj) ↔ ∃ m, s.syncMutexes obj = some m ∧ b = .mutex m) : Blocked t where
  reentry := fun j e he => by
    rw [het, update_apply] at he
    split at he
    · exact hrnt e he
    · exact h.reentry j e he
  waits := fun j obj => by
    rw [het, update_apply, hmap, hwt]
    split
    · exact hrs obj
    · exact h.waits j obj

theorem Blocked.remap {o} (h : Blocked s) (het : t.entering = s.entering)
    (hwt : t.env.waitsFor = s.env.waitsFor) (hmap : t.syncMutexes = Function.update s.syncMutexes obj o)
    (hold : ∀ i m, s.syncMutexes obj = some m → s.env.waitsFor i ≠ .mutex m)
    (hnew : ∀ i m, o = some m → s.env.waitsFor i ≠ .mutex m) : Blocked t := by
  refine h.congr het fun i obj' => ?_
  rw [hwt, hmap, update_apply]
  split
  · rename_i hobj
    subst hobj
    constructor
    · rintro ⟨m, hm, hwa⟩
      exact absurd hwa (hnew i m hm)
    · rintro ⟨m, hm, hwa⟩
      exact absurd hwa (hold i m hm)
  · rfl

/-! ### Entering and leaving -/

theorem SyncInv.step (h : SyncInv log s) (hstd : Steady t.env) (hcg : Change s t es) (hbk : Blocked t) :
    SyncInv (log ++ es) t :=
  ⟨hstd, hcg.tables h.tables, hbk, hcg.balanced h.tables h.balanced⟩

theorem SyncInv.current (h : SyncInv log s) (hec : s.env.executing = true) :
    ∃ th, s.env.threads[s.env.currentThread]? = some th ∧ th.blockedBy = .notBlocked := by
  obtain ⟨th, hth, -, hbl⟩ := h.steady.live.running hec
  rw [(h.steady.thread hth).underlying_eq] at hbl
  exact ⟨th, hth, hbl⟩

theorem levels_locked (hfr : x.locked = none ∨ ∃ n, x.locked = some (i, n)) {k}
    (hlc : y.locked = some (i, k)) (hmr : k.get = (x.level fun j => decide (j = i)) + 1) (j : Nat) :
    (x.level fun u => decide (u = j)) + [SyncEvent.entered obj i].count (.entered obj j) =
      [SyncEvent.entered obj i].count (.exited obj j) + y.level fun u => decide (u = j) := by
  by_cases hj : j = i
  · subst hj
    simp [Mutex.level, hlc, hmr]
  · rcases hfr with hfr | ⟨n, hfr⟩
    · simp [Mutex.level, hlc, hfr, Ne.symm hj]
    · simp [Mutex.level, hlc, hfr, Ne.symm hj]

/-- A block is entered or waited for, unless the levels of the thread or the mutexes are too many. -/
def Enters (log : List SyncEvent) (s : SyncState) (obj : Nat) : Prop :=
  (∃ r t, s.call (.enter obj) = .ok (r, t) ∧ SyncInv (log ++ syncEvents s (.enter obj) r t) t) ∨
    (s.call (.enter obj) = .error (.env .lockCount) ∧
      log.count (.exited obj s.env.currentThread) + 2 ^ 32 ≤ log.count (.entered obj s.env.currentThread) + 1) ∨
    s.call (.enter obj) = .error (.env .mutexCount) ∧ 2 ^ 64 ≤ s.env.mutexState.mutexCount + 1

section
variable (h : SyncInv log s) (hec : s.env.executing = true)
include h hec

theorem SyncInv.enter_locks {k : Nat}
    (hmp : s.syncMutexes obj = some m) (hx : s.env.mutexState.mutexes m = some x)
    (hlo : s.env.lockMutex m = .ok (.returned (.ok k), s.env.setMutex m y))
    (hfr : x.locked = none ∨ ∃ n, x.locked = some (s.env.currentThread, n)) (hty : y.type = x.type)
    (hlc : y.locked = some (s.env.currentThread, n))
    (hmr : n.get = (x.level fun j => decide (j = s.env.currentThread)) + 1) : Enters log s obj := by
  refine .inl ⟨.returned 0, { s with env := s.env.setMutex m y }, ?_, ?_⟩
  · simp [call, objcSyncEnter, hmp, lock, hlo, ofEnv, entered]
  · refine h.step (h.steady.lockMutex hec hlo) ?_ (h.blocked.congr rfl fun _ _ => .rfl)
    refine .mutex hmp hx rfl rfl hty (fun hnot => ?_) (by simp [syncEvents, SyncEvent.obj]) fun i => ?_
    · rw [hlc] at hnot
      cases hnot
    · exact levels_locked hfr hlc hmr i

theorem SyncInv.enter_mapped (hmp : s.syncMutexes obj = some m) : Enters log s obj := by
  obtain ⟨x, hx, hty, hwe⟩ := h.tables.live obj m hmp
  rcases hlc : x.locked with _ | ⟨u, n⟩
  · refine h.enter_locks hec hmp hx (Environment.lockMutex_free hx hlc) (.inl hlc) rfl rfl ?_
    simp [Mutex.level, hlc]
  by_cases hown : u = s.env.currentThread
  · subst hown
    by_cases hmr : n.get + 1 < 2 ^ 32
    · refine h.enter_locks hec hmp hx (Environment.lockMutex_own hx hty hlc hmr)
        (.inr ⟨n, hlc⟩) rfl rfl ?_
      simp [Mutex.level, hlc]
    · refine .inr (.inl ⟨?_, ?_⟩)
      · simp [call, objcSyncEnter, hmp, lock, Environment.lockMutex_full hx hty hlc hmr, ofEnv]
      · have hll := h.balanced obj s.env.currentThread
        rw [levelOf_mapped hmp hx] at hll
        simp only [Mutex.level, hlc, decide_true, if_true] at hll
        omega
  · obtain ⟨th, hth, hru⟩ := h.current hec
    have hlo := Environment.lockMutex_other hx hlc hown hth hru
    refine .inl ⟨.yielded, { s with
      env := (s.env.setMutex m { x with waitingCount := x.waitingCount + 1 }).yielded th (.mutex m) (.lockMutex m)
      entering := update s.entering s.env.currentThread (some (.reentry obj)) }, ?_, ?_⟩
    · simp [call, objcSyncEnter, hmp, lock, hlo, ofEnv]
    · refine h.step (h.steady.lockMutex hec hlo) ?_ ?_
      · exact .mutex hmp hx rfl rfl rfl (fun _ => Nat.succ_pos _) (by simp [syncEvents]) fun i => by
          simp [syncEvents, Mutex.level]
      · have hyl : Environment.Yields (s.env.setMutex m { x with waitingCount := x.waitingCount + 1 }) (.mutex m)
            (.lockMutex m) _ := ⟨th, hth, hru, rfl⟩
        refine h.blocked.update rfl (hyl.waitsFor_eq rfl rfl rfl).2 rfl
          (fun e he => ⟨obj, (some_inj.mp he).symm⟩) fun obj' => ?_
        constructor
        · rintro ⟨⟩
          exact ⟨m, hmp, rfl⟩
        · rintro ⟨m', hmp', hm⟩
          cases hm
          rw [h.tables.inj obj obj' m hmp hmp']

theorem SyncInv.enter_unmapped (hunm : s.syncMutexes obj = none) : Enters log s obj := by
  by_cases hrm : s.env.mutexState.mutexCount + 1 < 2 ^ 64
  · have hii : s.env.mutexState.initMutex .recursive = .ok (s.env.mutexState.mutexCount,
        { s.env.mutexState with mutexCount := s.env.mutexState.mutexCount + 1 }.insert s.env.mutexState.mutexCount
          ⟨.recursive, 0, none⟩) := by
      rw [Environment.MutexState.initMutex]
      simp only [hrm, if_true]
    generalize hms : { s.env.mutexState with mutexCount := s.env.mutexState.mutexCount + 1 }.insert
      s.env.mutexState.mutexCount ⟨.recursive, 0, none⟩ = ms at hii
    have hmt : ms.mutexes = update s.env.mutexState.mutexes s.env.mutexState.mutexCount
        (some ⟨.recursive, 0, none⟩) := by
      rw [← hms]
      rfl
    have hnew : ms.mutexes s.env.mutexState.mutexCount = some ⟨.recursive, 0, none⟩ := by
      rw [hmt, update_self]
    have hlo := Environment.lockMutex_free (s := { s.env with mutexState := ms }) hnew rfl
    have hab := h.steady.inv.fresh s.env.mutexState.mutexCount (Nat.le_refl _)
    refine .inl ⟨.returned 0, { s with
      env := { s.env with mutexState := ms }.setMutex s.env.mutexState.mutexCount
        (.heldBy ⟨.recursive, 0, none⟩ s.env.currentThread)
      syncMutexes := update s.syncMutexes obj (some s.env.mutexState.mutexCount) }, ?_, ?_⟩
    · simp [call, objcSyncEnter, hunm, hii, lock, hlo, ofEnv, entered]
    · refine h.step ((h.steady.initMutex hec hii).lockMutex hec hlo) ?_ ?_
      · refine .created hunm hab rfl ?_
        change update ms.mutexes _ _ = _
        rw [hmt, Function.update_idem]
      · refine h.blocked.remap rfl rfl rfl (fun i m hm => ?_) fun i m hm hwt => ?_
        · rw [hunm] at hm
          cases hm
        · cases hm
          obtain ⟨x, hx, -⟩ := h.steady.wanted hwt
          rw [hab] at hx
          cases hx
  · refine .inr (.inr ⟨?_, Nat.le_of_not_lt hrm⟩)
    have hii : s.env.mutexState.initMutex .recursive = .error .mutexCount := by
      rw [Environment.MutexState.initMutex]
      simp only [hrm, if_false]
    simp [call, objcSyncEnter, hunm, hii, ofEnv]

end

theorem SyncInv.holds (h : SyncInv log s) (hins : Inside log obj i) :
    ∃ m x n, s.syncMutexes obj = some m ∧ s.env.mutexState.mutexes m = some x ∧ x.type = .recursive ∧
      x.locked = some (i, n) ∧ log.count (.entered obj i) = log.count (.exited obj i) + n.get := by
  have hba := h.balanced obj i
  cases hmp : s.syncMutexes obj with
  | none =>
    rw [levelOf_unmapped hmp] at hba
    unfold Inside at hins
    omega
  | some m =>
    obtain ⟨x, hx, hty, -⟩ := h.tables.live obj m hmp
    rw [levelOf_mapped hmp hx] at hba
    rcases hlc : x.locked with _ | ⟨u, n⟩
    · simp only [Mutex.level, hlc] at hba
      unfold Inside at hins
      omega
    · by_cases hu : u = i
      · subst hu
        simp only [Mutex.level, hlc, decide_true, if_true] at hba
        exact ⟨m, x, n, rfl, hx, hty, hlc, hba⟩
      · simp only [Mutex.level, hlc, hu, decide_false, Bool.false_eq_true, if_false] at hba
        unfold Inside at hins
        omega

theorem levels_unlocked (hlc : x.locked = some (i, n))
    (hlf : (y.locked = none ∧ n.get = 1) ∨ ∃ k, y.locked = some (i, k) ∧ k.get = n.get - 1) (j : Nat) :
    (x.level fun u => decide (u = j)) + [SyncEvent.exited obj i].count (.entered obj j) =
      [SyncEvent.exited obj i].count (.exited obj j) + y.level fun u => decide (u = j) := by
  have hpos := n.pos
  by_cases hj : j = i
  · subst hj
    rcases hlf with ⟨hlf, honc⟩ | ⟨k, hlf, hlss⟩
    · simp [Mutex.level, hlc, hlf, honc]
    · simp [Mutex.level, hlc, hlf, hlss]
      omega
  · rcases hlf with ⟨hlf, -⟩ | ⟨k, hlf, -⟩
    · simp [Mutex.level, hlc, hlf, Ne.symm hj]
    · simp [Mutex.level, hlc, hlf, Ne.symm hj]

theorem SyncInv.exit (h : SyncInv log s) (hec : s.env.executing = true) (hins : Inside log obj s.env.currentThread) :
    ∃ t, s.call (.exit obj) = .ok (.returned 0, t) ∧ SyncInv (log ++ syncEvents s (.exit obj) (.returned 0) t) t := by
  obtain ⟨m, x, n, hmp, hx, hty, hlc, -⟩ := h.holds hins
  by_cases honc : n.get = 1
  · have huc := Environment.unlockMutex_last hx hlc honc
    have hstd := h.steady.unlockMutex hec huc
    have hfr : (s.env.setMutex m { x with locked := none }).mutexState.mutexes m = some { x with locked := none } :=
      Environment.mutexes_setMutex m _
    by_cases hzr : x.waitingCount = 0
    · -- Nobody waits for the mutex, so that it is destroyed.
      have hds := Environment.destroyMutex_unwanted hfr rfl hzr
      refine ⟨{ s with
        env := { s.env.setMutex m { x with locked := none } with mutexState := _ }
        syncMutexes := update s.syncMutexes obj none }, ?_,
        h.step (hstd.destroyMutex hec hds) (.destroyed hmp hx hlc honc rfl ?_) ?_⟩
      · simp [call, objcSyncExit, hmp, huc, hds, ofEnv]
      · exact Function.update_idem _ _ _
      · refine h.blocked.remap rfl rfl rfl (fun i m' hm hwt => ?_) (by rintro i m' ⟨⟩)
        rw [hmp] at hm
        cases hm
        obtain ⟨x', hx', hwe⟩ := h.steady.wanted hwt
        rw [hx] at hx'
        cases hx'
        exact hwe hzr
    · have hds := Environment.destroyMutex_wanted hfr rfl hzr
      refine ⟨{ s with env := s.env.setMutex m { x with locked := none } }, ?_, ?_⟩
      · simp [call, objcSyncExit, hmp, huc, hds, ofEnv]
      · refine h.step hstd ?_ (h.blocked.congr rfl fun _ _ => .rfl)
        exact .mutex hmp hx rfl rfl rfl (fun _ => Nat.pos_of_ne_zero hzr) (by simp [syncEvents, SyncEvent.obj])
          (levels_unlocked hlc (.inl ⟨rfl, honc⟩))
  · have hmr : 0 < n.get - 1 := by
      have hpos := n.pos
      omega
    have huc := Environment.unlockMutex_more hx hty hlc hmr
    refine ⟨{ s with env := s.env.setMutex m { x with locked := some (s.env.currentThread, ⟨n.get - 1, hmr⟩) } }, ?_, ?_⟩
    · simp [call, objcSyncExit, hmp, huc, ofEnv, Nat.ne_of_gt hmr]
    · refine h.step (h.steady.unlockMutex hec huc) ?_ (h.blocked.congr rfl fun _ _ => .rfl)
      exact .mutex hmp hx rfl rfl rfl (by rintro ⟨⟩) (by simp [syncEvents, SyncEvent.obj])
        (levels_unlocked hlc (.inr ⟨_, rfl, rfl⟩))

/-! ### What threads do besides -/

theorem Concurrent.simple (h : Concurrent c) : c.Simple := by
  cases c <;> trivial

theorem ofEnv_ok {α : Type} {r} {a : α} (h : ofEnv r = .ok a) : r = .ok a := by
  cases r with
  | ok b =>
    cases h
    rfl
  | error => cases h

theorem SyncInv.apart (h : SyncInv log s) (hstd : Steady env)
    (hmt : env.mutexState.mutexes = s.env.mutexState.mutexes)
    (hwt : ∀ i m, env.waitsFor i = .mutex m ↔ s.env.waitsFor i = .mutex m) : SyncInv (log ++ []) { s with env } :=
  h.step hstd (.same rfl hmt) (h.blocked.congr rfl fun i obj => by simp [hwt])

theorem Concurrent.apart {r} {env'} (hc : Concurrent c)
    (hsch : ∀ clocks, c ≠ .schedule clocks) (hcl : env.call c = .ok (r, env')) :
    env'.mutexState = env.mutexState ∧ ∀ ctx v, r ≠ .resumed ctx v := by
  cases c with
  | newThread =>
    cases hcl
    exact ⟨rfl, nofun⟩
  | exitThread v =>
    obtain ⟨env₁, hext, hcl⟩ := bind_eq_ok.mp hcl
    cases hcl
    obtain ⟨th, -, hext⟩ := bind_eq_ok.mp hext
    cases hext
    exact ⟨rfl, nofun⟩
  | sleep | interrupt =>
    obtain ⟨env₁, hyld, hcl⟩ := bind_eq_ok.mp hcl
    cases hcl
    obtain ⟨th, -, -, rfl⟩ := (Environment.yieldThread_spec _ _ _).ok hyld
    exact ⟨rfl, nofun⟩
  | schedule clocks => exact absurd rfl (hsch clocks)
  | _ => exact hc.elim

section
variable (h : SyncInv log s)
include h

theorem SyncInv.apart_call {r}
    (heb : s.env.Enabled c) (hc : Concurrent c) (hsch : ∀ clocks, c ≠ .schedule clocks)
    (hcl : s.env.call c = .ok (r, env)) : SyncInv (log ++ []) { s with env } := by
  refine h.apart (h.steady.call hc.simple heb hcl) (by rw [(hc.apart hsch hcl).1]) fun i m => ?_
  rcases (h.steady.inv.effect hcl).moves.waitsFor_eq hsch with hsm | ⟨b, hmay, hru, hblo⟩
  · rw [hsm]
  · have hb : b ≠ .mutex m := by
      rintro rfl
      cases c <;> first | exact hmay | exact hc
    rw [hblo]
    split
    · rename_i hi
      rw [hi, hru]
      exact ⟨fun hnot => absurd hnot hb, nofun⟩
    · rfl

theorem SyncInv.schedule {clocks}
    (heb : s.env.executing = false) (hcl : s.call (.other (.schedule clocks)) = .ok (r, t)) :
    SyncInv (log ++ syncEvents s (.other (.schedule clocks)) r t) t := by
  obtain ⟨⟨result, env⟩, henv, hcl⟩ := bind_eq_ok.mp hcl
  have henv := ofEnv_ok henv
  have hstd := h.steady.call (c := .schedule clocks) trivial heb henv
  rcases (h.steady.schedule_ends clocks).ok henv with hslp | ⟨i, th, v, env', hth, hr, hcu, hpic, hmt⟩
  · cases hslp
    cases hcl
    exact h.apart hstd rfl fun _ _ => .rfl
  obtain rfl : result = .resumed th.hostContext v := hr
  have hcu : env.currentThread = i := hcu
  have hwt : ∀ j, env.waitsFor j = if j = i then .notBlocked else s.env.waitsFor j := by
    rcases h.steady.inv.effect henv with ⟨hau, -⟩ | ⟨clock, i', th', v', s₁, -, -, hth', -, -, hwo, hcr⟩
    · cases hau
    · have hcu' : env.currentThread = i' := Environment.current_of_core hcr
      obtain rfl : i' = i := hcu'.symm.trans hcu
      exact hwo.waitsFor_eq hth' hcr
  have hbl : s.env.waitsFor i = th.blockedBy := by
    rw [Environment.waitsFor_of hth, (h.steady.thread hth).underlying_eq]
  cases hpic with
  | ready haw =>
    have hidl : s.entering i = none := by
      cases het : s.entering i with
      | none => rfl
      | some rest =>
        obtain ⟨obj, rfl⟩ := h.blocked.reentry i rest het
        obtain ⟨m, -, hm⟩ := (h.blocked.waits i obj).mp het
        rw [hbl] at hm
        exact absurd hm (haw m)
    simp only [hcu, hidl] at hcl
    cases hcl
    refine h.step hstd (.same rfl (by rw [hmt]; rfl)) ?_
    have hslf : update s.entering i none = s.entering := by
      rw [← hidl]
      exact update_eq_self i s.entering
    refine h.blocked.update rfl hwt hslf.symm nofun fun obj => ?_
    exact ⟨nofun, fun hnot => by obtain ⟨m, -, hm⟩ := hnot; cases hm⟩
  | @locked m x hmx hx hfr =>
    obtain ⟨obj, hmp⟩ := h.tables.owned m x hx
    have het : s.entering i = some (.reentry obj) := (h.blocked.waits i obj).mpr ⟨m, hmp, hbl.trans hmx⟩
    simp only [hcu, het] at hcl
    cases hcl
    change SyncInv (log ++ [.entered obj env.currentThread]) _
    rw [hcu]
    refine h.step hstd ?_ ?_
    · refine .mutex (y := { x.heldBy i with waitingCount := x.waitingCount - 1 }) hmp hx rfl
        (by rw [entered, hmt]; rfl) rfl nofun (by simp [SyncEvent.obj]) ?_
      exact levels_locked (.inl hfr) rfl (by simp [Mutex.level, hfr])
    · refine h.blocked.update rfl hwt rfl nofun fun obj' => ?_
      exact ⟨nofun, fun hnot => by obtain ⟨m, -, hm⟩ := hnot; cases hm⟩

theorem SyncInv.other (heb : s.env.Enabled c)
    (hc : Concurrent c) (hcl : s.call (.other c) = .ok (r, t)) : SyncInv (log ++ syncEvents s (.other c) r t) t := by
  by_cases hsch : ∃ clocks, c = .schedule clocks
  · obtain ⟨clocks, rfl⟩ := hsch
    exact h.schedule heb hcl
  have hsch : ∀ clocks, c ≠ .schedule clocks := fun clocks hclc => hsch ⟨clocks, hclc⟩
  obtain ⟨⟨result, env⟩, henv, hcl⟩ := bind_eq_ok.mp hcl
  have henv := ofEnv_ok henv
  have hapl := h.apart_call heb hc hsch henv
  cases result with
  | resumed ctx v => exact absurd rfl ((hc.apart hsch henv).2 ctx v)
  | _ =>
    cases hcl
    exact hapl

/-- What `@synchronized` blocks come to, after the history `log`. -/
structure SyncSafe (log : List SyncEvent) (s : SyncState) : Prop where
  /-- At most one thread is inside a block of an object. -/
  exclusive : ∀ obj i j, Inside log obj i → Inside log obj j → i = j
  /-- An object has a mutex exactly while a thread is inside a block of it or waits to enter one. -/
  mapped : ∀ obj, (s.syncMutexes obj).isSome ↔ (∃ i, Inside log obj i) ∨ ∃ i rest, s.entering i = some rest ∧ rest.obj = obj
  /-- The mutexes are those of the objects, and nothing else. -/
  live : ∀ obj m, s.syncMutexes obj = some m → (s.env.mutexState.mutexes m).isSome
  owned : ∀ m, (s.env.mutexState.mutexes m).isSome → ∃ obj, s.syncMutexes obj = some m
  /-- A thread that waits to enter a block of an object is blocked on its mutex, and no other thread is. -/
  waits : ∀ i obj, (∃ rest, s.entering i = some rest ∧ rest.obj = obj) ↔
    ∃ m, s.syncMutexes obj = some m ∧ s.env.waitsFor i = .mutex m
  /-- The emulator stops when a thread has entered the blocks of an object too often, or when too many mutexes have been
      created, and for no other reason. -/
  enter : s.env.executing = true → ∀ obj e, s.call (.enter obj) = .error e → (e = .env .lockCount ∧
      log.count (.exited obj s.env.currentThread) + 2 ^ 32 ≤ log.count (.entered obj s.env.currentThread) + 1) ∨
    (e = .env .mutexCount ∧ 2 ^ 64 ≤ s.env.mutexState.mutexCount + 1)
  exit : s.env.executing = true → ∀ obj, Inside log obj s.env.currentThread → ∃ t, s.call (.exit obj) = .ok (.returned 0, t)
  /-- The main loop finds a thread that can go on, unless the threads wait for each other. -/
  schedule : ∀ clocks e, s.call (.other (.schedule clocks)) = .error e → e = .env .deadlocked

theorem SyncInv.enter (hec : s.env.executing = true) (obj : Nat) : Enters log s obj := by
  cases hmp : s.syncMutexes obj with
  | some m => exact h.enter_mapped hec hmp
  | none => exact h.enter_unmapped hec hmp

theorem SyncInv.mapped (obj : Nat) : (s.syncMutexes obj).isSome ↔
    (∃ i, Inside log obj i) ∨ ∃ i rest, s.entering i = some rest ∧ rest.obj = obj := by
  constructor
  · intro hso
    obtain ⟨m, hmp⟩ := isSome_iff_exists.mp hso
    obtain ⟨x, hx, -, hwe⟩ := h.tables.live obj m hmp
    rcases hlc : x.locked with _ | ⟨i, n⟩
    · -- Nobody holds the mutex, so that somebody waits for it.
      right
      have hpos := hwe hlc
      rw [h.steady.counted.count m x hx] at hpos
      obtain ⟨th, hth, hbl⟩ := countP_pos_iff.mp hpos
      obtain ⟨i, hi⟩ := mem_iff_getElem?.mp hth
      refine ⟨i, .reentry obj, (h.blocked.waits i obj).mpr ⟨m, hmp, ?_⟩, rfl⟩
      rw [Environment.waitsFor_of hi]
      exact of_decide_eq_true hbl
    · left
      refine ⟨i, ?_⟩
      have hba := h.balanced obj i
      have hpos := n.pos
      rw [levelOf_mapped hmp hx] at hba
      simp only [Mutex.level, hlc, decide_true, if_true] at hba
      unfold Inside
      omega
  · rintro (⟨i, hins⟩ | ⟨i, rest, het, rfl⟩)
    · obtain ⟨m, x, n, hmp, -⟩ := h.holds hins
      rw [hmp]
      rfl
    · obtain ⟨obj, rfl⟩ := h.blocked.reentry i rest het
      obtain ⟨m, hmp, -⟩ := (h.blocked.waits i obj).mp het
      rw [Entering.obj, hmp]
      rfl

theorem SyncInv.safe : SyncSafe log s where
  exclusive := fun obj i j hi hj => by
    obtain ⟨m, x, n, hmp, hx, -, hlc, -⟩ := h.holds hi
    obtain ⟨m', x', n', hmp', hx', -, hlc', -⟩ := h.holds hj
    rw [hmp] at hmp'
    cases hmp'
    rw [hx] at hx'
    cases hx'
    rw [hlc] at hlc'
    cases hlc'
    rfl
  mapped := h.mapped
  live := fun obj m hmp => by
    obtain ⟨x, hx, -⟩ := h.tables.live obj m hmp
    rw [hx]
    rfl
  owned := fun m hso => by
    obtain ⟨x, hx⟩ := isSome_iff_exists.mp hso
    exact h.tables.owned m x hx
  waits := fun i obj => by
    rw [← h.blocked.waits]
    constructor
    · rintro ⟨rest, het, rfl⟩
      obtain ⟨obj, rfl⟩ := h.blocked.reentry i rest het
      exact het
    · intro het
      exact ⟨_, het, rfl⟩
  enter := fun hec obj e heo => by
    rcases h.enter hec obj with ⟨r, t, hok, -⟩ | ⟨hfu, hcn⟩ | ⟨hfu, hcn⟩
    · rw [hok] at heo
      cases heo
    · rw [hfu] at heo
      exact .inl ⟨(Except.error.inj heo).symm, hcn⟩
    · rw [hfu] at heo
      exact .inr ⟨(Except.error.inj heo).symm, hcn⟩
  exit := fun hec obj hins => by
    obtain ⟨t, hok, -⟩ := h.exit hec hins
    exact ⟨t, hok⟩
  schedule := fun clocks e heo => by
    rcases bind_eq_error.mp heo with heo | ⟨⟨result, env⟩, -, heo⟩
    · cases hcl : s.env.call (.schedule clocks) with
      | ok a =>
        rw [hcl] at heo
        cases heo
      | error e' =>
        rw [hcl] at heo
        cases heo
        rw [(h.steady.schedule_ends clocks).error hcl]
    · cases result with
      | resumed =>
        dsimp only at heo
        split at heo <;> cases heo
      | _ => cases heo

end

theorem SyncInv.start (mem : Nat → UInt8) (fileStreams : Nat → Option Environment.FileLock) :
    SyncInv [] (start (.start mem fileStreams)) where
  steady := by
    have hrun : Runs Environment.call Environment.Enabled (.start mem fileStreams) (.start mem fileStreams) := .start
    obtain ⟨hinv, hlv⟩ := Environment.live_of_runs hrun
    refine ⟨hinv, hlv, .start mem fileStreams, fun th hth => ?_⟩
    rw [mem_singleton.mp hth]
    trivial
  tables := ⟨nofun, nofun, nofun⟩
  blocked := ⟨nofun, fun i obj => ⟨nofun, fun hnot => by obtain ⟨m, hm, -⟩ := hnot; cases hm⟩⟩
  balanced := fun _ _ => rfl

/-- In every run in which threads leave the blocks that they are inside of, in whatever order they enter them. -/
theorem syncSafe_of_runs {mem : Nat → UInt8} {fileStreams : Nat → Option Environment.FileLock}
    (h : Runs (recorded call syncEvents) Nested ([], start (.start mem fileStreams)) (log, s)) :
    SyncSafe log s := by
  have hinv := h.invariant (P := fun s => SyncInv s.1 s.2) (.start mem fileStreams) fun s t c r hs hnested hcall => by
    obtain ⟨hcall, hlog⟩ := recorded_eq_ok hcall
    rw [hlog]
    cases c with
    | enter obj =>
      rcases hs.enter hnested obj with ⟨r', t', hok, hnext⟩ | ⟨hfull, -⟩ | ⟨hfull, -⟩
      · rw [hcall] at hok
        cases hok
        exact hnext
      · rw [hcall] at hfull
        cases hfull
      · rw [hcall] at hfull
        cases hfull
    | exit obj =>
      obtain ⟨t', hok, hnext⟩ := hs.exit hnested.1 hnested.2
      rw [hcall] at hok
      cases hok
      exact hnext
    | other c => exact hs.other hnested.1 hnested.2 hcall
  exact hinv.safe

end

/-- Thread 0 has entered a block of an object twice and left it once, and thread 1 waits to enter. -/
theorem syncSafe_of_runs_waiting : ∃ log s,
    Runs (recorded call syncEvents) Nested ([], start (Environment.start (fun _ => 0) fun _ => none)) (log, s) ∧
      s.entering 1 = some (.reentry 7) ∧ (s.syncMutexes 7).isSome ∧ ∀ i, Inside log 7 i → i = 0 := by
  obtain ⟨log, s, hrun, hlog, hentering⟩ : ∃ log s,
      Runs (recorded call syncEvents) Nested ([], start (.start (fun _ => 0) fun _ => none)) (log, s) ∧
        log = [.entered 7 0, .entered 7 0, .exited 7 0] ∧ s.entering 1 = some (.reentry 7) :=
    ⟨_, _, .exec [.other .newThread, .enter 7, .enter 7, .other .interrupt, .other (.schedule [⟨id, id⟩]), .enter 7,
      .other (.schedule [⟨id, id⟩]), .exit 7] .start rfl, rfl, rfl⟩
  have hsafe := syncSafe_of_runs hrun
  refine ⟨log, s, hrun, hentering, (hsafe.mapped 7).mpr (.inr ⟨1, _, hentering, rfl⟩), fun i hi => ?_⟩
  exact hsafe.exclusive 7 i 0 hi (by rw [hlog]; decide)

/-- Entering over and over again, the thread gets to every level below 2 ^ 32. -/
theorem enters_again (n : Mem.NonZeroU32) (hn : n.get < 2 ^ 32) : ∃ log s,
    Runs (recorded call syncEvents) Nested ([], start (.start (fun _ => 0) fun _ => none)) (log, s) ∧
      s.env.executing = true ∧ s.syncMutexes 7 = some 0 ∧
      s.env.mutexState.mutexes 0 = some ⟨.recursive, 0, some (s.env.currentThread, n)⟩ := by
  obtain ⟨n, hpos⟩ := n
  induction n with
  | zero => cases hpos
  | succ n ih =>
    cases n with
    | zero => exact ⟨_, _, .exec [.enter 7] .start rfl, rfl, rfl, rfl⟩
    | succ n =>
      obtain ⟨log, s, hrun, hec, hmp, hx⟩ := ih (Nat.succ_pos n) (Nat.lt_of_succ_lt hn)
      have hlo := Environment.lockMutex_own hx rfl rfl hn
      have hent : recorded call syncEvents (log, s) (.enter 7) = .ok (.returned 0, log ++ [.entered 7 s.env.currentThread],
          { s with env := s.env.setMutex 0 ⟨.recursive, 0, some (s.env.currentThread, ⟨n + 1 + 1, hpos⟩)⟩ }) := by
        simp [recorded, call, objcSyncEnter, hmp, lock, hlo, ofEnv, entered, syncEvents]
      exact ⟨_, _, hrun.step (a := .enter 7) hec hent, hec, hmp, Environment.mutexes_setMutex 0 _⟩

/-- A thread that enters the blocks of an object 2 ^ 32 times stops the emulator. -/
theorem enters_too_often : ∃ log s,
    Runs (recorded call syncEvents) Nested ([], start (Environment.start (fun _ => 0) fun _ => none)) (log, s) ∧
      Nested (log, s) (.enter 7) ∧ s.call (.enter 7) = .error (.env .lockCount) := by
  obtain ⟨log, s, hrun, hexec, hmapped, hx⟩ := enters_again ⟨2 ^ 32 - 1, by decide⟩ (by decide)
  have hlock := Environment.lockMutex_full hx rfl rfl (by decide)
  refine ⟨log, s, hrun, hexec, ?_⟩
  simp [call, objcSyncEnter, hmapped, lock, hlock, ofEnv]

end TouchHLE.Objc.SyncState
