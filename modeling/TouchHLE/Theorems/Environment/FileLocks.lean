import TouchHLE.Theorems.Environment.Effects

/-! The locks of `FILE` objects. In every run the count of the lock is what its owner has locked and not yet unlocked, and
    every other thread has unlocked as often as it has locked. -/

namespace TouchHLE.Environment
open Lib List Function

inductive FileEvent where
  | locked (file thread : Nat)
  | unlocked (file thread : Nat)
deriving DecidableEq

def acquires (block : ThreadBlock) (thread : Nat) : List FileEvent :=
  match block with
  | .fileObjectLock file => [.locked file thread]
  | _ => []

def fileEvents (s : Environment) (call : Call) (r : Result) (t : Environment) : List FileEvent :=
  match call, r with
  | .flockfile file, .returned _ => [.locked file s.currentThread]
  | .ftrylockfile file, .returned v => if v = 0 then [.locked file s.currentThread] else []
  | .funlockfile file, .returned _ => [.unlocked file s.currentThread]
  | .schedule _, .resumed _ _ => acquires (s.waitsFor t.currentThread) t.currentThread
  | _, _ => []

def unlockedFiles (opened : Nat → Bool) (file : Nat) : Option FileLock := if opened file then some ⟨0, none⟩ else none

def lockOf (s : Environment) (file : Nat) : FileLock := (s.fileStreams file).getD ⟨0, none⟩

inductive Locks (s t : Environment) : List FileEvent → Prop where
  | same (locks : t.lockOf = s.lockOf) : Locks s t []
  | locked {file i : Nat} (free : (s.lockOf file).owningThread = none ∨ (s.lockOf file).owningThread = some i)
      (locks : t.lockOf = update s.lockOf file ⟨(s.lockOf file).lockCount + 1, some i⟩) :
      Locks s t [.locked file i]
  | unlocked {file i : Nat} (owned : (s.lockOf file).owningThread = some i) (positive : 0 < (s.lockOf file).lockCount)
      (locks : t.lockOf = update s.lockOf file
        ⟨(s.lockOf file).lockCount - 1, if (s.lockOf file).lockCount - 1 = 0 then none else some i⟩) :
      Locks s t [.unlocked file i]

section
variable {s t : Environment} {call : Call} {r : Result} {file i : Nat} {lock : FileLock} {log es : List FileEvent}

theorem fileHostObj_lockOf (h : s.fileHostObj file = .ok lock) : lock = s.lockOf file := by
  obtain ⟨fd, -, h⟩ := bind_eq_ok.mp h
  rw [lockOf]
  cases hfi : s.fileStreams file with
  | some o =>
    rw [hfi] at h
    cases h
    rfl
  | none =>
    simp only [hfi] at h
    split at h
    · cases h
      rfl
    · cases h

theorem lockOf_setFile : (s.setFile file lock).lockOf = update s.lockOf file lock := by
  funext f
  change (update s.fileStreams file (some lock) f).getD ⟨0, none⟩ = _
  rw [update_apply, update_apply]
  split <;> rfl

theorem lockOf_of_files (h : t.fileStreams = s.fileStreams) : t.lockOf = s.lockOf := by
  funext f
  rw [lockOf, lockOf, h]

/-- The host object of a standard stream may come with the call, but not its lock. -/
theorem lockOf_looked (h : s.fileHostObj file = .ok lock) (ht : t.fileStreams = (s.setFile file lock).fileStreams) :
    t.lockOf = s.lockOf := by
  rw [lockOf_of_files ht, lockOf_setFile, fileHostObj_lockOf h, update_eq_self]

theorem Woken.locks {b} {s₁} {th} (h : Woken s i b s₁)
    (hcr : t.core = (s₁.executes i th).core) : Locks s t (acquires b i) := by
  have hfe : t.fileStreams = s₁.fileStreams := files_of_core (s := s₁.executes i th) hcr
  cases h with
  | file hob hfr hunw =>
    obtain rfl := fileHostObj_lockOf hob
    refine .locked (.inl hunw) ?_
    rw [lockOf_of_files hfe, lockOf_setFile, hfr]
  | _ => exact .same (lockOf_of_files hfe)

theorem Effect.locks (h : Effect s r t call) : Locks s t (fileEvents s call r t) := by
  cases call with
  | flockfile file =>
    obtain ⟨lock, hob, ⟨-, rfl, th, -, -, hcr⟩ | ⟨hfr, rfl, rfl⟩⟩ := h
    · exact .same (lockOf_looked hob (files_of_core (s := (s.setFile file lock).yielded th _ _) hcr))
    · obtain rfl := fileHostObj_lockOf hob
      exact .locked hfr lockOf_setFile
  | ftrylockfile file =>
    obtain ⟨lock, hob, ⟨-, rfl, rfl⟩ | ⟨hfr, rfl, rfl⟩⟩ := h
    · exact .same (lockOf_looked hob rfl)
    · obtain rfl := fileHostObj_lockOf hob
      exact .locked hfr lockOf_setFile
  | funlockfile file =>
    obtain ⟨lock, hob, hon, hpos, rfl, rfl⟩ := h
    obtain rfl := fileHostObj_lockOf hob
    refine .unlocked hon hpos ?_
    rw [lockOf_setFile, hon]
  | schedule clocks =>
    rcases h with ⟨rfl, rfl⟩ | ⟨clock, i, th, v, s₁, -, -, hth, -, rfl, hwo, hcr⟩
    · exact .same rfl
    · have hcu : t.currentThread = i := current_of_core hcr
      have hbl := ThreadBlock.underlying_of_not_suspended hwo.threads_eq.2
      change Locks s t (acquires (s.waitsFor t.currentThread) t.currentThread)
      rw [hcu, waitsFor_of hth, hbl]
      exact hwo.locks hcr
  | _ => exact .same (lockOf_of_files (h.frame.files rfl))

theorem Locks.owner (h : Locks s t es) (hin : .locked file i ∈ es) : (t.lockOf file).owningThread = some i := by
  cases h with
  | same => cases hin
  | locked _ hlck =>
    cases mem_singleton.mp hin
    rw [hlck, update_self]
  | unlocked => cases mem_singleton.mp hin

/-- How often a thread has locked the file more than it has unlocked it. -/
def Holds (log : List FileEvent) (file i n : Nat) : Prop := log.count (.locked file i) = log.count (.unlocked file i) + n

/-- What a lock says of the history: its owner holds it as often as it counts, and nobody else does. -/
structure Balanced (log : List FileEvent) (s : Environment) : Prop where
  counted : ∀ file, (s.lockOf file).owningThread.isSome ↔ 0 < (s.lockOf file).lockCount
  held : ∀ file i, Holds log file i (if (s.lockOf file).owningThread = some i then (s.lockOf file).lockCount else 0)

theorem Balanced.update {e} (h : Balanced log s) (hlck : t.lockOf = update s.lockOf file lock)
    (he : ∀ f j, f ≠ file → e ≠ .locked f j ∧ e ≠ .unlocked f j) (hcou : lock.owningThread.isSome ↔ 0 < lock.lockCount)
    (hhl : ∀ j, Holds (log ++ [e]) file j (if lock.owningThread = some j then lock.lockCount else 0)) :
    Balanced (log ++ [e]) t where
  counted := fun f => by
    rw [hlck, update_apply]
    split
    · exact hcou
    · exact h.counted f
  held := fun f j => by
    rw [hlck, update_apply]
    split
    · rename_i hf
      rw [hf]
      exact hhl j
    · rename_i hf
      obtain ⟨hlc, hul⟩ := he f j hf
      rw [Holds, count_append, count_append, count_singleton, count_singleton, beq_false_of_ne hlc, beq_false_of_ne hul]
      exact h.held f j

theorem Locks.balanced (hlck : Locks s t es) (h : Balanced log s) : Balanced (log ++ es) t := by
  cases hlck with
  | same hsm =>
    rw [append_nil]
    exact ⟨by rw [hsm]; exact h.counted, by rw [hsm]; exact h.held⟩
  | @locked file i hfr hlck =>
    have hcou := h.counted file
    refine h.update hlck (fun f j hf => ⟨fun he => ?_, nofun⟩) (by simp) fun j => ?_
    · cases he
      exact hf rfl
    have hhl := h.held file j
    rw [Holds] at hhl ⊢
    -- A lock that is free counts nothing, so that its new owner begins with one.
    rcases hfr with hfr | hfr
    · rw [hfr] at hcou hhl
      by_cases hj : j = i
      · simp_all
      · simp_all [Ne.symm hj]
    · by_cases hj : j = i
      · subst hj
        simp [hhl, hfr, Nat.add_assoc]
      · simp [hhl, hfr, Ne.symm hj]
  | @unlocked file i hon hpos hlck =>
    refine h.update hlck (fun f j hf => ⟨nofun, fun he => ?_⟩) ?_ fun j => ?_
    · cases he
      exact hf rfl
    · dsimp only
      split
      · rename_i hzr
        simp [hzr]
      · rename_i hlf
        simp [Nat.pos_of_ne_zero hlf]
    have hhl := h.held file j
    rw [Holds, hon] at hhl
    rw [Holds]
    by_cases hj : j = i
    · subst hj
      -- The lock that is left counts one less, which is nothing when the thread no longer owns it.
      have hlf : (if (if (s.lockOf file).lockCount - 1 = 0 then none else some j) = some j
          then (s.lockOf file).lockCount - 1 else 0) = (s.lockOf file).lockCount - 1 := by
        split
        · rename_i hzr
          rw [hzr, if_neg nofun]
        · rw [if_pos rfl]
      rw [hlf]
      simp only [if_true] at hhl
      simp
      omega
    · have hoh : (if (s.lockOf file).lockCount - 1 = 0 then none else some i) ≠ some j := by
        split
        · nofun
        · exact fun hi => hj (Option.some_inj.mp hi).symm
      simpa [Ne.symm hj] using hhl

theorem Locks.keeps (h : Locks s t es) (hon : (s.lockOf file).owningThread = some i) :
    (t.lockOf file).owningThread = none ∨ (t.lockOf file).owningThread = some i := by
  cases h with
  | same hlck =>
    rw [hlck]
    exact .inr hon
  | locked hfr hlck =>
    rw [hlck, update_apply]
    split
    · rename_i hfi
      rw [← hfi, hon] at hfr
      rcases hfr with hfr | hfr
      · cases hfr
      · exact .inr hfr.symm
    · exact .inr hon
  | @unlocked file' j hon' _ hlck =>
    rw [hlck, update_apply]
    split
    · rename_i hfi
      rw [← hfi, hon] at hon'
      cases hon'
      split
      · exact .inl rfl
      · exact .inr rfl
    · exact .inr hon

theorem Balanced.owner_iff (h : Balanced log s) : (s.lockOf file).owningThread = some i ↔
    log.count (.unlocked file i) < log.count (.locked file i) := by
  have hhl := h.held file i
  rw [Holds] at hhl
  constructor
  · intro hon
    have hpos := (h.counted file).mp (by rw [hon]; rfl)
    rw [if_pos hon] at hhl
    omega
  · intro hmr
    by_contra hnot
    rw [if_neg hnot] at hhl
    omega

/-- What the locks of `FILE` objects come to, after the history `log`. -/
structure FilesSafe (log : List FileEvent) (s : Environment) : Prop where
  counted : ∀ file, (s.lockOf file).owningThread.isSome ↔ 0 < (s.lockOf file).lockCount
  /-- The owner is the thread that has locked more often than unlocked, by the count of the lock. -/
  owner : ∀ file i, (s.lockOf file).owningThread = some i ↔ log.count (.unlocked file i) < log.count (.locked file i)
  count : ∀ file i, (s.lockOf file).owningThread = some i →
    log.count (.locked file i) = log.count (.unlocked file i) + (s.lockOf file).lockCount
  exclusive : ∀ file i j, log.count (.unlocked file i) < log.count (.locked file i) →
    log.count (.unlocked file j) < log.count (.locked file j) → i = j
  /-- A thread comes back from `flockfile`, or with success from `ftrylockfile`, as the owner. -/
  returns : ∀ call r t, s.call call = .ok (r, t) → ∀ file i, .locked file i ∈ fileEvents s call r t →
    (t.lockOf file).owningThread = some i
  /-- A call frees the lock exactly when it makes up for the last time that the owner has locked it. -/
  frees : ∀ call r t, s.call call = .ok (r, t) → ∀ file i, (s.lockOf file).owningThread = some i →
    ((t.lockOf file).owningThread = none ↔ (log ++ fileEvents s call r t).count (.locked file i) =
      (log ++ fileEvents s call r t).count (.unlocked file i))

theorem Balanced.filesSafe (h : Balanced log s) (hinv : Inv s) : FilesSafe log s where
  counted := h.counted
  owner := fun file i => h.owner_iff
  count := fun file i hon => by
    have hhl := h.held file i
    rw [Holds, if_pos hon] at hhl
    exact hhl
  exclusive := fun file i j hi hj => by
    have hon := h.owner_iff.mpr hi
    rw [h.owner_iff.mpr hj] at hon
    exact (Option.some_inj.mp hon).symm
  returns := fun call r t hcl file i hin => (hinv.effect hcl).locks.owner hin
  frees := fun call r t hcl file i hon => by
    have hlck := (hinv.effect hcl).locks
    have hnx := hlck.balanced h
    constructor
    · intro hfr
      have hhl := hnx.held file i
      rw [Holds, hfr, if_neg nofun] at hhl
      exact hhl
    · intro heve
      rcases hlck.keeps hon with hfr | hon
      · exact hfr
      · have hmr := hnx.owner_iff.mp hon
        omega

/-- In every run that begins with unlocked files. -/
theorem filesSafe_of_logs {mem : Nat → UInt8} {opened : Nat → Bool}
    (h : Logs Environment.call Enabled fileEvents (start mem (unlockedFiles opened)) log s) : FilesSafe log s := by
  have hall : Inv s ∧ Balanced log s := by
    refine h.invariant (P := fun log s => Inv s ∧ Balanced log s) ⟨.start mem _, ?_⟩ ?_
    · have hfree : ∀ file, (start mem (unlockedFiles opened)).lockOf file = ⟨0, none⟩ := by
        intro file
        change (unlockedFiles opened file).getD ⟨0, none⟩ = _
        unfold unlockedFiles
        split <;> rfl
      refine ⟨fun file => ?_, fun file i => ?_⟩
      · rw [hfree]
        simp
      · rw [hfree]
        rfl
    · rintro log s t call r ⟨hinv, hbalanced⟩ - hcall
      exact ⟨hinv.steps (hinv.call_steps hcall), (hinv.effect hcall).locks.balanced hbalanced⟩
  exact hall.2.filesSafe hall.1

end

/-- Thread 0 locks a file twice and thread 1 waits for it; thread 0 unlocks it twice, and the scheduler takes it for
    thread 1. -/
theorem filesSafe_of_logs_waited : ∃ log s,
    Logs call Enabled fileEvents (start (fun _ => 0) (unlockedFiles fun file => file == 8)) log s ∧
    s.lockOf 8 = ⟨1, some 1⟩ ∧ log.count (.locked 8 1) = log.count (.unlocked 8 1) + 1 := by
  obtain ⟨s, hrun, hlock⟩ : ∃ s, Runs call Enabled (start (fun _ => 0) (unlockedFiles fun file => file == 8)) s ∧
      s.lockOf 8 = ⟨1, some 1⟩ :=
    ⟨_, .exec [.newThread, .flockfile 8, .flockfile 8, .interrupt, .schedule [⟨id, id⟩], .flockfile 8,
      .schedule [⟨id, id⟩], .funlockfile 8, .funlockfile 8, .interrupt, .schedule [⟨id, id⟩]] .start rfl, rfl⟩
  obtain ⟨log, hlog⟩ : ∃ log, Logs call Enabled fileEvents (start (fun _ => 0) (unlockedFiles fun file => file == 8)) log s :=
    Logs.of_runs hrun
  refine ⟨log, s, hlog, hlock, ?_⟩
  have hcount := (filesSafe_of_logs hlog).count 8 1 (by rw [hlock])
  rw [hcount, hlock]

end TouchHLE.Environment
