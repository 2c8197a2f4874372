import Mathlib.Data.List.Induction
import Mathlib.Data.List.Nodup

/-! What condition variables are for, as a property of histories. A thread waits, is given a wake-up and returns: each return
    takes one wake-up that was given to a wait begun before it. A signal is owed to the thread that has waited longest. -/

namespace TouchHLE.Spec.CondVar
open List
variable {θ γ : Type}

inductive Event (θ γ : Type) where
  | waits (thread : θ) (cond : γ)
  | wakes (thread : θ) (cond : γ)
  | returns (thread : θ) (cond : γ)
deriving DecidableEq

def Event.thread : Event θ γ → θ
  | .waits i _ | .wakes i _ | .returns i _ => i

inductive Phase (γ : Type) where
  | running
  | waiting (cond : γ)
  | woken (cond : γ)
deriving DecidableEq

section
variable [DecidableEq γ]

/-- The events that can follow: a wait, its wake-up and the return from it. -/
def Phase.next : Phase γ → Event θ γ → Option (Phase γ)
  | .running, .waits _ c => some (.waiting c)
  | .waiting c, .wakes _ c' => if c' = c then some (.woken c) else none
  | .woken c, .returns _ c' => if c' = c then some .running else none
  | _, _ => none

variable [DecidableEq θ]

def follow (i : θ) (p : Option (Phase γ)) (e : Event θ γ) : Option (Phase γ) :=
  if e.thread = i then p.bind (·.next e) else p

def phase (i : θ) (log : List (Event θ γ)) : Option (Phase γ) := log.foldl (follow i) (some .running)

theorem phase_append (i : θ) (log es : List (Event θ γ)) : phase i (log ++ es) = es.foldl (follow i) (phase i log) :=
  foldl_append

theorem foldl_follow_other {i : θ} {es : List (Event θ γ)} (h : ∀ e ∈ es, e.thread ≠ i) (p : Option (Phase γ)) :
    es.foldl (follow i) p = p := by
  induction es with
  | nil => rfl
  | cons e es ih =>
    rw [foldl_cons, follow, if_neg (h e mem_cons_self)]
    exact ih fun e' he' => h e' (mem_cons_of_mem e he')

theorem phase_append_other {i : θ} {log es : List (Event θ γ)} (h : ∀ e ∈ es, e.thread ≠ i) :
    phase i (log ++ es) = phase i log := by
  rw [phase_append, foldl_follow_other h]

/-- Wake-ups for several threads, each of them once. -/
theorem phase_append_wakes {i : θ} {c : γ} {log : List (Event θ γ)} {is : List θ} (hnd : is.Nodup) (hi : i ∈ is)
    (h : phase i log = some (.waiting c)) : phase i (log ++ is.map (.wakes · c)) = some (.woken c) := by
  obtain ⟨before, after, rfl⟩ := append_of_mem hi
  have hoh : ∀ js : List θ, i ∉ js → ∀ e ∈ js.map (Event.wakes · c), e.thread ≠ i := by
    intro js hjs e he
    obtain ⟨j, hj, rfl⟩ := mem_map.mp he
    exact fun hji => hjs (hji ▸ hj)
  have hnot := (nodup_cons.mp (nodup_middle.mp hnd)).1
  rw [mem_append, not_or] at hnot
  rw [map_append, ← append_assoc, map_cons, phase_append, phase_append_other (hoh before hnot.1), h,
    foldl_cons, foldl_follow_other (hoh after hnot.2)]
  simp [follow, Event.thread, Phase.next]

theorem counts {i : θ} {log : List (Event θ γ)} {p : Phase γ} (h : phase i log = some p) (c : γ) :
    log.count (.waits i c) = log.count (.wakes i c) + (if p = .waiting c then 1 else 0) ∧
      log.count (.wakes i c) = log.count (.returns i c) + (if p = .woken c then 1 else 0) := by
  induction log using List.reverseRecOn generalizing p with
  | nil =>
    cases h
    simp
  | append_singleton log e ih =>
    simp only [count_append]
    by_cases he : e.thread = i
    · subst he
      rw [phase_append, foldl_cons, foldl_nil, follow, if_pos rfl] at h
      obtain ⟨q, hq, h⟩ := Option.bind_eq_some_iff.mp h
      obtain ⟨hwt, hwks⟩ := ih hq
      rw [hwt, hwks]
      -- One of the three events that are in order.
      cases q with
      | running =>
        cases e with
        | waits i c' =>
          cases h
          simp [Event.thread, count_singleton]
        | wakes | returns => cases h
      | waiting c₀ =>
        cases e with
        | waits => cases h
        | wakes i c' =>
          simp only [Phase.next] at h
          split at h
          · rename_i hc
            cases h
            subst hc
            simp [Event.thread, count_singleton]
          · cases h
        | returns => cases h
      | woken c₀ =>
        cases e with
        | waits | wakes => cases h
        | returns i c' =>
          simp only [Phase.next] at h
          split at h
          · rename_i hc
            cases h
            subst hc
            simp [Event.thread, count_singleton]
          · cases h
    · rw [phase_append_other (by simpa using he)] at h
      obtain ⟨hwt, hwks⟩ := ih h
      have hne : ∀ e', e'.thread = i → [e].count e' = 0 := by
        intro e' he'
        refine count_eq_zero.mpr fun hmem => he ?_
        rw [← mem_singleton.mp hmem]
        exact he'
      rw [hne _ rfl, hne _ rfl, hne _ rfl]
      exact ⟨hwt, hwks⟩

end

/-- The thread has waited on the variable since this point of the history, and nothing has happened to it. -/
def Since (log : List (Event θ γ)) (i : θ) (c : γ) (n : Nat) : Prop :=
  log[n]? = some (.waits i c) ∧ ∀ m e, n < m → log[m]? = some e → e.thread ≠ i

def Longest (log : List (Event θ γ)) (i : θ) (c : γ) : Prop := ∃ n, Since log i c n ∧ ∀ j m, Since log j c m → n ≤ m

section
variable {log es : List (Event θ γ)} {i : θ} {c : γ} {n : Nat}

theorem Since.lt (h : Since log i c n) : n < log.length := (List.getElem?_eq_some_iff.mp h.1).1

theorem since_append_other (h : ∀ e ∈ es, e.thread ≠ i) : Since (log ++ es) i c n ↔ Since log i c n := by
  constructor
  · rintro ⟨hn, hls⟩
    rw [getElem?_append] at hn
    split at hn
    · rename_i hlt
      refine ⟨hn, fun m e hm he => hls m e hm ?_⟩
      rw [List.getElem?_append_left (List.getElem?_eq_some_iff.mp he).1]
      exact he
    · exact absurd rfl (h _ (mem_of_getElem? hn))
  · intro hsnc
    refine ⟨?_, fun m e hm he => ?_⟩
    · rw [getElem?_append_left hsnc.lt]
      exact hsnc.1
    · rw [getElem?_append] at he
      split at he
      · exact hsnc.2 m e hm he
      · exact h e (mem_of_getElem? he)

theorem not_since_append {e : Event θ γ} (he : e ∈ es) (htr : e.thread = i) (hno : ∀ e' ∈ es, ∀ c', e' ≠ .waits i c') :
    ¬Since (log ++ es) i c n := by
  rintro ⟨hn, hls⟩
  obtain ⟨k, hk⟩ := mem_iff_getElem?.mp he
  have hget : (log ++ es)[log.length + k]? = some e := by
    rw [getElem?_append_right (Nat.le_add_right _ _), Nat.add_sub_cancel_left]
    exact hk
  rcases Nat.lt_or_ge n (log.length + k) with hlt | hge
  · exact hls _ e hlt hget htr
  · rw [getElem?_append_right (Nat.le_trans (Nat.le_add_right _ _) hge)] at hn
    exact hno _ (mem_of_getElem? hn) c rfl

theorem since_append_waits : ∀ c', Since (log ++ [.waits i c']) i c n ↔ c' = c ∧ n = log.length := by
  intro c'
  have hls : (log ++ [.waits i c'])[log.length]? = some (.waits i c') := by simp
  constructor
  · intro hsnc
    have hle : log.length ≤ n := by
      rcases Nat.lt_or_ge n log.length with hlt | hge
      · exact absurd rfl (hsnc.2 log.length _ hlt hls)
      · exact hge
    have hlt := hsnc.lt
    rw [length_append, length_singleton] at hlt
    obtain rfl : n = log.length := by omega
    have hget := hsnc.1
    rw [hls] at hget
    cases hget
    exact ⟨rfl, rfl⟩
  · rintro ⟨rfl, rfl⟩
    refine ⟨hls, fun m e hm he => ?_⟩
    have hlt := (List.getElem?_eq_some_iff.mp he).1
    rw [List.length_append, List.length_singleton] at hlt
    omega

end
end TouchHLE.Spec.CondVar
