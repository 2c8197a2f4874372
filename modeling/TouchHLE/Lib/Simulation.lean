/-! A component that answers calls as an abstract one does. The abstract one may read what a call refers to in the concrete
    state, and an answer is compared together with the state that is left. -/

namespace TouchHLE.Lib
variable {σ τ α ρ ω ε : Type}

def Admitted (call : σ → α → Except ε (ρ × σ)) (guard : σ → α → Prop) : σ → List α → Prop
  | _, [] => True
  | s, a :: as => guard s a ∧ ∀ r t, call s a = .ok (r, t) → Admitted call guard t as

/-- Each of the calls returns, with the answer that the abstract component gives to the same calls. -/
def Follows (call : σ → α → Except ε (ρ × σ)) (spec : σ → τ → α → ω × τ) (answers : α → ρ → σ → ω → Prop) :
    σ → τ → List α → Prop
  | _, _, [] => True
  | s, x, a :: as => ∃ r t, call s a = .ok (r, t) ∧ answers a r t (spec s x a).1 ∧
      Follows call spec answers t (spec s x a).2 as

variable {call : σ → α → Except ε (ρ × σ)} {guard : σ → α → Prop} {spec : σ → τ → α → ω × τ}
  {answers : α → ρ → σ → ω → Prop}

theorem Admitted.nil {s : σ} : Admitted call guard s [] := trivial

theorem Admitted.cons {s t : σ} {a : α} {as : List α} {r : ρ} (hg : guard s a) (hcl : call s a = .ok (r, t))
    (h : Admitted call guard t as) : Admitted call guard s (a :: as) := by
  refine ⟨hg, fun r' t' hcl' => ?_⟩
  rw [hcl] at hcl'
  cases hcl'
  exact h

theorem Follows.head {s t : σ} {x : τ} {a : α} {as : List α} {r : ρ} (h : Follows call spec answers s x (a :: as))
    (hcl : call s a = .ok (r, t)) : answers a r t (spec s x a).1 ∧ Follows call spec answers t (spec s x a).2 as := by
  obtain ⟨r', t', hcl', hans, hrs⟩ := h
  rw [hcl] at hcl'
  cases hcl'
  exact ⟨hans, hrs⟩

/-- If every admitted call keeps the two states in relation and is answered in the same way, so are all the calls. -/
theorem follows_of_simulation (sim : σ → τ → Prop) (step : ∀ s x a, sim s x → guard s a →
      ∃ r t, call s a = .ok (r, t) ∧ answers a r t (spec s x a).1 ∧ sim t (spec s x a).2) {s : σ} {x : τ} {as : List α}
    (hsim : sim s x) (h : Admitted call guard s as) : Follows call spec answers s x as := by
  induction as generalizing s x with
  | nil => exact trivial
  | cons a as ih =>
    obtain ⟨r, t, hcl, hans, hsim'⟩ := step s x a hsim h.1
    exact ⟨r, t, hcl, hans, ih hsim' (h.2 r t hcl)⟩

end TouchHLE.Lib
