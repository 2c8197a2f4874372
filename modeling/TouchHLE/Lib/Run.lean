/-! Runs of a component: a state type and a function that answers a call with a result and the next state, or panics. A run
    makes calls that a guard admits. -/

namespace TouchHLE.Lib
variable {σ α ρ ε : Type}

/-- The states reached from `s₀` by calls that meet `guard` and return. -/
inductive Runs (call : σ → α → Except ε (ρ × σ)) (guard : σ → α → Prop) (s₀ : σ) : σ → Prop where
  | start : Runs call guard s₀ s₀
  | step {s t : σ} {a : α} {r : ρ} : Runs call guard s₀ s → guard s a → call s a = .ok (r, t) → Runs call guard s₀ t

def exec (call : σ → α → Except ε (ρ × σ)) (guard : σ → α → Prop) [∀ s a, Decidable (guard s a)] (s : σ) : List α → Option σ
  | [] => some s
  | a :: as =>
    if guard s a then
      match call s a with
      | .ok (_, t) => exec call guard t as
      | .error _ => none
    else none

namespace Runs
variable {call : σ → α → Except ε (ρ × σ)} {guard : σ → α → Prop} {s₀ s : σ}

/-- A property that holds at the start and that each admitted call keeps holds in every state reached. -/
theorem invariant {P : σ → Prop} (h : Runs call guard s₀ s) (h₀ : P s₀)
    (keeps : ∀ s t a r, P s → guard s a → call s a = .ok (r, t) → P t) : P s := by
  induction h with
  | start => exact h₀
  | step _ hg hc ih => exact keeps _ _ _ _ ih hg hc

theorem exec [∀ s a, Decidable (guard s a)] {t : σ} (as : List α) (h : Runs call guard s₀ s)
    (ht : Lib.exec call guard s as = some t) : Runs call guard s₀ t := by
  induction as generalizing s with
  | nil =>
    cases ht
    exact h
  | cons a as ih =>
    rw [Lib.exec] at ht
    split at ht
    · rename_i hg
      cases hcl : call s a with
      | error e => simp [hcl] at ht
      | ok p =>
        simp only [hcl] at ht
        exact ih (h.step hg hcl) ht
    · cases ht

end Runs

/-- A run together with what is noted of its calls, one after the other. -/
inductive Logs {ν : Type} (call : σ → α → Except ε (ρ × σ)) (guard : σ → α → Prop) (note : σ → α → ρ → σ → List ν) (s₀ : σ) :
    List ν → σ → Prop where
  | start : Logs call guard note s₀ [] s₀
  | step {log : List ν} {s t : σ} {a : α} {r : ρ} : Logs call guard note s₀ log s → guard s a → call s a = .ok (r, t) →
      Logs call guard note s₀ (log ++ note s a r t) t

namespace Logs
variable {ν : Type} {call : σ → α → Except ε (ρ × σ)} {guard : σ → α → Prop} {note : σ → α → ρ → σ → List ν}
  {s₀ s : σ}
  {log : List ν}

theorem invariant {P : List ν → σ → Prop} (h : Logs call guard note s₀ log s) (h₀ : P [] s₀)
    (keeps : ∀ log s t a r, P log s → guard s a → call s a = .ok (r, t) → P (log ++ note s a r t) t) : P log s := by
  induction h with
  | start => exact h₀
  | step _ hg hc ih => exact keeps _ _ _ _ _ ih hg hc

theorem of_runs (h : Runs call guard s₀ s) : ∃ log, Logs call guard note s₀ log s := by
  induction h with
  | start => exact ⟨[], .start⟩
  | step _ hg hc ih =>
    obtain ⟨log, hlog⟩ := ih
    exact ⟨_, hlog.step hg hc⟩

end Logs

/-- A component that keeps what is noted of its calls, so that a guard can depend on it. -/
def recorded {ν : Type} (call : σ → α → Except ε (ρ × σ)) (note : σ → α → ρ → σ → List ν) (s : List ν × σ) (a : α) :
    Except ε (ρ × (List ν × σ)) :=
  match call s.2 a with
  | .ok (r, t) => .ok (r, s.1 ++ note s.2 a r t, t)
  | .error e => .error e

theorem recorded_eq_ok {ν : Type} {call : σ → α → Except ε (ρ × σ)} {note : σ → α → ρ → σ → List ν} {s t : List ν × σ} {a : α}
    {r : ρ} (h : recorded call note s a = .ok (r, t)) : call s.2 a = .ok (r, t.2) ∧ t.1 = s.1 ++ note s.2 a r t.2 := by
  unfold recorded at h
  split at h
  · cases h
    rename_i hcl
    exact ⟨hcl, rfl⟩
  · cases h

end TouchHLE.Lib
