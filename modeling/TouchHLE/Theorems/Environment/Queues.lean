import TouchHLE.Theorems.Environment.Calls

/-! The invariant of threads and condition variables: a thread is in a queue of a condition variable exactly while
    it is blocked on it, and what it goes on with fits what it waits for. -/

namespace TouchHLE.Environment
open Lib List

/-- What a thread goes on with fits its block. A thread that waits on a condition variable is in one of its queues,
    and the variable has the mutex that the thread came with. -/
def Settled (s : Environment) (i : Nat) (th : Thread) : Prop :=
  match th.blockedBy.underlying with
  | .notBlocked => th.hostContext = .guest
  | .mutex m => th.hostContext = .lockMutex m
  | .condition c d => ∃ o m, s.conditionVariables c = some o ∧ o.currMutex = some m ∧ (i ∈ o.waiting ∨ i ∈ o.waking) ∧
      th.hostContext = .waiting c m d
  | _ => ∃ v, th.hostContext = .returning v

structure Inv (s : Environment) : Prop where
  settled : ∀ i th, s.threads[i]? = some th → Settled s i th
  queued : ∀ c o, s.conditionVariables c = some o → ∀ i, i ∈ o.waiting ∨ i ∈ o.waking →
    ∃ th d, s.threads[i]? = some th ∧ th.blockedBy.underlying = .condition c d
  nodup : ∀ c o, s.conditionVariables c = some o → (o.waiting ++ o.waking).Nodup
  /-- A thread that has timed out has gone on at once. -/
  timedOut : ∀ c o, s.conditionVariables c = some o → o.timedOut = []
  fresh : ∀ m, s.mutexState.mutexCount ≤ m → s.mutexState.mutexes m = none

section
variable {s t : Environment} {i : Nat} {th th' : Thread}
variable {c m : Nat} {o o' : CondHostObject} {d : Option Nat} {b : ThreadBlock}

theorem threads_set (hi : s.threads[i]? = some th) (j : Nat) :
    (s.threads.set i th')[j]? = if j = i then some th' else s.threads[j]? := by
  have hlt : i < s.threads.length := (List.getElem?_eq_some_iff.mp hi).1
  by_cases hj : j = i
  · subst hj
    simp [hlt]
  · rw [getElem?_set_ne (Ne.symm hj), if_neg hj]

theorem newThread_thread (hi : s.newThread.2.threads[i]? = some th) :
    s.threads[i]? = some th ∨ th = ⟨true, .notBlocked, none, .guest⟩ := by
  rw [newThread, getElem?_append] at hi
  split at hi
  · exact .inl hi
  · exact .inr (mem_singleton.mp (mem_of_getElem? hi))

theorem Settled.mono (h : Settled s i th) (hke : ∀ c o m, s.conditionVariables c = some o → o.currMutex = some m →
    i ∈ o.waiting ∨ i ∈ o.waking →
      ∃ o', t.conditionVariables c = some o' ∧ o'.currMutex = some m ∧ (i ∈ o'.waiting ∨ i ∈ o'.waking)) : Settled t i th := by
  unfold Settled at h ⊢
  split at h
  · exact h
  · exact h
  · obtain ⟨o, m, ho, hm, hqu, hctx⟩ := h
    obtain ⟨o', ho', hm', hqu'⟩ := hke _ o m ho hm hqu
    exact ⟨o', m, ho', hm', hqu', hctx⟩
  · exact h

theorem Settled.congr (h : Settled s i th) (hcnd : t.conditionVariables = s.conditionVariables) : Settled t i th :=
  h.mono fun _ o _ ho hm hqu => ⟨o, hcnd ▸ ho, hm, hqu⟩

theorem Settled.setCond (h : Settled s i th) (hc : s.conditionVariables c = some o)
    (hcnd : t.conditionVariables = (s.setCond c (some o')).conditionVariables)
    (hke : ∀ m, o.currMutex = some m → i ∈ o.waiting ∨ i ∈ o.waking →
      o'.currMutex = some m ∧ (i ∈ o'.waiting ∨ i ∈ o'.waking)) : Settled t i th := by
  refine h.mono fun c' o'' m ho hm hqu => ?_
  rw [hcnd, conds_setCond]
  split
  · rename_i hcc
    obtain rfl : o = o'' := Option.some_inj.mp (hc.symm.trans (hcc ▸ ho))
    exact ⟨o', rfl, hke m hm hqu⟩
  · exact ⟨o'', ho, hm, hqu⟩

def WaitsOn (s : Environment) (c i : Nat) : Prop :=
  ∃ th d, s.threads[i]? = some th ∧ th.blockedBy.underlying = .condition c d

section
variable (h : Inv s)
include h

/-- The invariant reads threads, condition variables and mutexes only. -/
theorem Inv.congr (htr : t.threads = s.threads) (hcnd : t.conditionVariables = s.conditionVariables)
    (hfh : ∀ m, t.mutexState.mutexCount ≤ m → t.mutexState.mutexes m = none) : Inv t where
  settled := fun i th hi => (h.settled i th (htr ▸ hi)).congr hcnd
  queued := by
    rw [htr, hcnd]
    exact h.queued
  nodup := hcnd ▸ h.nodup
  timedOut := hcnd ▸ h.timedOut
  fresh := hfh

theorem Inv.setThread (hi : s.threads[i]? = some th) (htr : t.threads = s.threads.set i th')
    (hcnd : t.conditionVariables = s.conditionVariables)
    (hfh : ∀ m, t.mutexState.mutexCount ≤ m → t.mutexState.mutexes m = none)
    (hold : ∀ c d, th.blockedBy.underlying = .condition c d → th'.blockedBy.underlying = .condition c d)
    (hnew : Settled s i th') : Inv t where
  settled := fun j thj hj => by
    rw [htr, threads_set hi] at hj
    split at hj
    · rename_i hji
      cases hj
      exact hji ▸ hnew.congr hcnd
    · exact (h.settled j thj hj).congr hcnd
  queued := fun c o hc j hj => by
    rw [hcnd] at hc
    obtain ⟨thj, d, hthj, hbl⟩ := h.queued c o hc j hj
    rw [htr, threads_set hi]
    by_cases hji : j = i
    · rw [hji, hi] at hthj
      cases hthj
      exact ⟨th', d, if_pos hji, hold c d hbl⟩
    · exact ⟨thj, d, (if_neg hji).trans hthj, hbl⟩
  nodup := hcnd ▸ h.nodup
  timedOut := hcnd ▸ h.timedOut
  fresh := hfh

theorem Inv.replace {o'} (hcnd : t.conditionVariables = (s.setCond c o').conditionVariables)
    (hsd : ∀ j th, t.threads[j]? = some th → Settled t j th)
    (hoth : ∀ c' o, c' ≠ c → s.conditionVariables c' = some o → ∀ j, j ∈ o.waiting ∨ j ∈ o.waking → t.WaitsOn c' j)
    (hnew : ∀ o, o' = some o → (∀ j, j ∈ o.waiting ∨ j ∈ o.waking → t.WaitsOn c j) ∧ (o.waiting ++ o.waking).Nodup ∧
      o.timedOut = [])
    (hfh : ∀ m, t.mutexState.mutexCount ≤ m → t.mutexState.mutexes m = none) : Inv t := by
  have hall : ∀ c' o, t.conditionVariables c' = some o → (∀ j, j ∈ o.waiting ∨ j ∈ o.waking → t.WaitsOn c' j) ∧
      (o.waiting ++ o.waking).Nodup ∧ o.timedOut = [] := by
    intro c' o hc'
    rw [hcnd, conds_setCond] at hc'
    split at hc'
    · rename_i hcc
      exact hcc ▸ hnew o hc'
    · rename_i hcc
      exact ⟨hoth c' o hcc hc', h.nodup c' o hc', h.timedOut c' o hc'⟩
  exact ⟨hsd, fun c o hc => (hall c o hc).1, fun c o hc => (hall c o hc).2.1, fun c o hc => (hall c o hc).2.2, hfh⟩

theorem Inv.setCond (hc : s.conditionVariables c = some o)
    (htr : t.threads = s.threads) (hcnd : t.conditionVariables = (s.setCond c (some o')).conditionVariables)
    (hms : t.mutexState = s.mutexState) (hmx : o'.currMutex = o.currMutex)
    (hpr : (o'.waiting ++ o'.waking).Perm (o.waiting ++ o.waking)) (htm : o'.timedOut = o.timedOut) : Inv t := by
  have hmem : ∀ i, (i ∈ o'.waiting ∨ i ∈ o'.waking) ↔ (i ∈ o.waiting ∨ i ∈ o.waking) := fun i => by
    simpa only [mem_append] using hpr.mem_iff
  refine h.replace hcnd (fun j th hj => ?_) (fun c' o _ hc' j hj => ?_) ?_ (hms ▸ h.fresh)
  · exact (h.settled j th (htr ▸ hj)).setCond hc hcnd fun m hm hqu => ⟨hmx.trans hm, (hmem j).mpr hqu⟩
  · rw [WaitsOn, htr]
    exact h.queued c' o hc' j hj
  · rintro _ ⟨⟩
    refine ⟨fun j hj => ?_, hpr.nodup_iff.mpr (h.nodup c o hc), htm.trans (h.timedOut c o hc)⟩
    rw [WaitsOn, htr]
    exact h.queued c o hc j ((hmem j).mp hj)

theorem Inv.replaceCond {o'}
    (hold : ∀ o, s.conditionVariables c = some o → o.waiting = [] ∧ o.waking = [])
    (hnew : ∀ o, o' = some o → o.waiting = [] ∧ o.waking = [] ∧ o.timedOut = []) : Inv (s.setCond c o') := by
  refine h.replace rfl (fun j th hj => (h.settled j th hj).mono fun c' o m ho hm hqu => ⟨o, ?_, hm, hqu⟩)
    (fun c' o _ => h.queued c' o) (fun o ho => ?_) h.fresh
  · rw [conds_setCond, if_neg ?_]
    · exact ho
    · rintro rfl
      obtain ⟨hw, hk⟩ := hold o ho
      simp [hw, hk] at hqu
  · obtain ⟨hw, hk, htm⟩ := hnew o ho
    simp [hw, hk, htm]

theorem Inv.enqueue (hi : s.threads[i]? = some th)
    (hru : th.blockedBy = .notBlocked) (hc : s.conditionVariables c = some o)
    (hmx : o.currMutex = some m ∨ (o.waking = [] ∧ o.waiting = []))
    (htr : t.threads = s.threads.set i { th with blockedBy := .condition c d, hostContext := .waiting c m d })
    (hcnd : t.conditionVariables =
      (s.setCond c (some { o with currMutex := some m, waiting := o.waiting ++ [i] })).conditionVariables)
    (hms : t.mutexState = s.mutexState) : Inv t := by
  have hout : ∀ c' o', s.conditionVariables c' = some o' → ¬(i ∈ o'.waiting ∨ i ∈ o'.waking) := by
    intro c' o' hc' hin
    obtain ⟨th', d', hth', hbl⟩ := h.queued c' o' hc' i hin
    rw [hi] at hth'
    cases hth'
    rw [hru] at hbl
    cases hbl
  refine h.replace hcnd (fun j thj hj => ?_) (fun c' o' _ hc' j hj => ?_) ?_ (hms ▸ h.fresh)
  · rw [htr, threads_set hi] at hj
    split at hj
    · rename_i hji
      cases hj
      exact ⟨_, m, by rw [hcnd, conds_setCond, if_pos rfl], rfl, .inl (by simp [hji]), rfl⟩
    · refine (h.settled j thj hj).setCond hc hcnd fun m' hm' hqu => ⟨?_, hqu.imp_left (mem_append_left _)⟩
      -- Somebody waits already, so the mutex is the same.
      have hmm : o.currMutex = some m := hmx.resolve_right fun hem => by
        simp [hem.1, hem.2] at hqu
      exact hmm.symm.trans hm'
  · rw [WaitsOn, htr, threads_set hi, if_neg fun hji : j = i => hout c' o' hc' (hji ▸ hj)]
    exact h.queued c' o' hc' j hj
  · rintro _ ⟨⟩
    refine ⟨fun j hj => ?_, ?_, h.timedOut c o hc⟩
    · rw [WaitsOn, htr, threads_set hi]
      by_cases hji : j = i
      · exact ⟨_, d, if_pos hji, rfl⟩
      · rw [if_neg hji]
        exact h.queued c o hc j (by simpa [hji] using hj)
    · obtain ⟨hwn, hwk⟩ := not_or.mp (hout c o hc)
      rw [append_assoc, singleton_append]
      refine nodup_middle.mpr (nodup_cons.mpr ⟨?_, h.nodup c o hc⟩)
      simp [hwn, hwk]

theorem Inv.dequeue (hi : s.threads[i]? = some th)
    (hbl : th.blockedBy = .condition c d) (hc : s.conditionVariables c = some o)
    (htr : t.threads = s.threads.set i { th with blockedBy := .notBlocked, hostContext := .guest })
    (hcnd : t.conditionVariables = (s.setCond c (some o')).conditionVariables)
    (hfh : ∀ m, t.mutexState.mutexCount ≤ m → t.mutexState.mutexes m = none) (hmx : o'.currMutex = o.currMutex)
    (hmem : ∀ j, (j ∈ o'.waiting ∨ j ∈ o'.waking) ↔ (j ∈ o.waiting ∨ j ∈ o.waking) ∧ j ≠ i)
    (hnd : (o'.waiting ++ o'.waking).Nodup) (htm : o'.timedOut = o.timedOut) : Inv t := by
  have hwt : ∀ c' j, j ≠ i → s.WaitsOn c' j → t.WaitsOn c' j := by
    intro c' j hji hwt
    rwa [WaitsOn, htr, threads_set hi, if_neg hji]
  refine h.replace hcnd (fun j thj hj => ?_) (fun c' o'' hcc hc' j hj => ?_) ?_ hfh
  · rw [htr, threads_set hi] at hj
    split at hj
    · cases hj
      exact rfl
    · rename_i hji
      exact (h.settled j thj hj).setCond hc hcnd fun m hm hqu => ⟨hmx.trans hm, (hmem j).mpr ⟨hqu, hji⟩⟩
  · have hque := h.queued c' o'' hc' j hj
    refine hwt c' j ?_ hque
    rintro rfl
    obtain ⟨thj, d', hthj, hblc⟩ := hque
    rw [hi] at hthj
    cases hthj
    rw [hbl] at hblc
    cases hblc
    exact hcc rfl
  · rintro _ ⟨⟩
    refine ⟨fun j hj => ?_, hnd, htm.trans (h.timedOut c o hc)⟩
    obtain ⟨hj, hji⟩ := (hmem j).mp hj
    exact hwt c j hji (h.queued c o hc j hj)

theorem Inv.newThread : Inv s.newThread.2 := by
  refine ⟨fun j thj hj => ?_, fun c o hc j hj => ?_, h.nodup, h.timedOut, h.fresh⟩
  · rcases newThread_thread hj with hj | rfl
    · exact h.settled j thj hj
    · exact rfl
  · obtain ⟨thj, d, hthj, hbl⟩ := h.queued c o hc j hj
    refine ⟨thj, d, ?_, hbl⟩
    rw [Environment.newThread, List.getElem?_append_left (List.getElem?_eq_some_iff.mp hthj).1]
    exact hthj

theorem Inv.fresh_setMutex {x y} (hx : s.mutexState.mutexes m = some x) :
    ∀ k, (s.setMutex m y).mutexState.mutexCount ≤ k → (s.setMutex m y).mutexState.mutexes k = none := by
  intro k hk
  have hold := h.fresh k hk
  have hkm : k ≠ m := by
    rintro rfl
    rw [hx] at hold
    cases hold
  simpa [setMutex, MutexState.insert, hkm] using hold

end

theorem Settled.ofPlain {rest} (hpa : b.Plain)
    (hbc : (rest = .guest ∧ b = .notBlocked) ∨ ∃ v, b ≠ .notBlocked ∧ rest = .returning v) :
    Settled s i { th with blockedBy := b, hostContext := rest } := by
  rcases hbc with ⟨rfl, rfl⟩ | ⟨v, hb, rfl⟩
  · exact rfl
  · cases b with
    | notBlocked => exact absurd rfl hb
    | sleeping => exact ⟨v, rfl⟩
    | mutex => exact hpa.elim
    | semaphore => exact ⟨v, rfl⟩
    | condition => exact hpa.elim
    | joining => exact ⟨v, rfl⟩
    | waitingForDebugger | suspended => exact hpa.elim
    | fileObjectLock => exact ⟨v, rfl⟩

theorem ThreadBlock.Plain.underlying_ne (h : b.Plain) (c : Nat) (d : Option Nat) : b.underlying ≠ .condition c d := by
  cases b with
  | suspended | condition => exact h.elim
  | _ => exact nofun

theorem Step.inv {e} (h : Inv s) (hst : Step s e t) : Inv t := by
  cases hst with
  | memory | semaphores | files => exact h.congr rfl rfl h.fresh
  | initMutex type =>
    refine h.congr rfl rfl fun k hk => ?_
    have hne : k ≠ s.mutexState.mutexCount := Nat.ne_of_gt hk
    simpa [MutexState.insert, hne] using h.fresh k (Nat.le_of_succ_le hk)
  | @destroyMutex m =>
    refine h.congr rfl rfl fun k hk => ?_
    by_cases hkm : k = m
    · simp [hkm]
    · simpa [hkm] using h.fresh k hk
  | lock hx | lockAgain hx | unlock hx | unlockOnce hx => exact h.congr rfl rfl (h.fresh_setMutex hx)
  | lockBlock hx _ _ hth hru =>
    exact h.setThread hth rfl rfl (h.fresh_setMutex hx) (by simp [hru, ThreadBlock.underlying]) rfl
  | block hth hru hpa hbc =>
    exact h.setThread hth rfl rfl h.fresh (by simp [hru, ThreadBlock.underlying]) (.ofPlain hpa hbc)
  | condInit hab =>
    refine h.replaceCond (fun o ho => ?_) ?_
    · rw [hab] at ho
      cases ho
    · rintro _ ⟨⟩
      exact ⟨rfl, rfl, rfl⟩
  | condDestroy hc hwn hwk =>
    refine h.replaceCond (fun o ho => ?_) (fun o ho => by cases ho)
    rw [hc] at ho
    cases ho
    exact ⟨hwn, hwk⟩
  | condBlock hc hmx _ hth hru => exact h.enqueue hth hru hc hmx rfl rfl rfl
  | @signal c i o waiting hc hfs =>
    refine h.setCond hc rfl rfl rfl rfl ?_ rfl
    rw [hfs]
    rw [← append_assoc]
    exact perm_append_singleton i _
  | @broadcast c o hc =>
    refine h.setCond hc rfl rfl rfl rfl ?_ rfl
    change (o.waking ++ o.waiting).Perm (o.waiting ++ o.waking)
    exact perm_append_comm
  | newThread => exact h.newThread
  | @exitThread th _ hth =>
    have hsd := h.settled s.currentThread th hth
    exact h.setThread hth rfl rfl h.fresh (fun _ _ => id) hsd
  | wrap hth hsm =>
    refine h.setThread hth rfl rfl h.fresh (fun c d => hsm.trans) ?_
    have hsd := h.settled _ _ hth
    unfold Settled at hsd ⊢
    rwa [hsm]
  | wake hth _ hpa => exact h.setThread hth rfl rfl h.fresh (fun c d hcd => absurd hcd (hpa.underlying_ne c d)) rfl
  | wakeMutex hth _ hbl hx =>
    exact h.setThread hth rfl rfl (h.fresh_setMutex hx) (by simp [hbl, ThreadBlock.underlying]) rfl
  | @wakeSignalled i m c d th x o waking hth _ hbl hc hmx hfs hx hfr =>
    have hnd := h.nodup c o hc
    rw [hfs] at hnd
    have hnd' := nodup_middle.mp hnd
    obtain ⟨hnot, hnd'⟩ := nodup_cons.mp hnd'
    refine h.dequeue hth hbl hc rfl rfl (h.fresh_setMutex hx) rfl (fun j => ?_) hnd' rfl
    rw [hfs]
    have hij : j ∈ o.waiting ∨ j ∈ waking → j ≠ i := by
      rintro hj rfl
      exact hnot (mem_append.mpr hj)
    simp only [mem_cons]
    constructor
    · intro hj
      exact ⟨hj.imp_right .inr, hij hj⟩
    · rintro ⟨hj | rfl | hj, hne⟩
      · exact .inl hj
      · exact absurd rfl hne
      · exact .inr hj
  | @wakeTimedOut i m c d th x o hth _ hbl hc hmx hwk hx hfr =>
    refine h.dequeue hth hbl hc rfl rfl (h.fresh_setMutex hx) rfl (fun j => ?_) ?_ rfl
    · simp [hwk]
    · have hnd := h.nodup c o hc
      simp only [hwk, append_nil] at hnd ⊢
      exact hnd.filter _

end
end TouchHLE.Environment
