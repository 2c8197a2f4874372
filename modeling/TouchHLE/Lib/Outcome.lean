import Mathlib.Algebra.Order.Ring.Nat
import Mathlib.Data.List.Nodup
import Mathlib.Data.List.Perm.Basic

/-! Computations that return a value or panic, as `Except`. The rules take a computation apart into its
    parts, and reason about a loop that may panic at each round. -/

namespace TouchHLE.Lib
open List
variable {ε α β σ : Type}

@[simp] theorem ok_bind (a : α) (f : α → Except ε β) : (.ok a >>= f) = f a := rfl

@[simp] theorem error_bind (e : ε) (f : α → Except ε β) : (.error e >>= f) = .error e := rfl

@[simp] theorem pure_eq_ok (a : α) : (pure a : Except ε α) = .ok a := rfl

theorem bind_eq_ok {x : Except ε α} {f : α → Except ε β} {b : β} : (x >>= f) = .ok b ↔ ∃ a, x = .ok a ∧ f a = .ok b := by
  cases x with
  | error e | ok a => simp

theorem bind_eq_error {x : Except ε α} {f : α → Except ε β} {e : ε} :
    (x >>= f) = .error e ↔ x = .error e ∨ ∃ a, x = .ok a ∧ f a = .error e := by
  cases x with
  | error e' | ok a => simp

def Ends (x : Except ε α) (Q : α → Prop) (E : ε → Prop) : Prop :=
  match x with
  | .ok a => Q a
  | .error e => E e

abbrev Ensures (x : Except ε α) (Q : α → Prop) : Prop := Ends x Q fun _ => True

section
variable {x y : Except ε α} {f : α → Except ε β} {P Q : α → Prop} {R : β → Prop} {E : ε → Prop}

theorem Ends.ok (h : Ends x Q E) {a : α} (hx : x = .ok a) : Q a := by
  subst hx
  exact h

theorem Ends.error (h : Ends x Q E) {e : ε} (hx : x = .error e) : E e := by
  subst hx
  exact h

theorem Ends.bind (h : Ends x P E) (h' : ∀ a, P a → Ends (f a) R E) : Ends (x >>= f) R E := by
  cases x with
  | ok a => exact h' a h
  | error e => exact h

theorem Ends.andThen {E' : ε → Prop} (h : Ends x P E') (hpn : ∀ e, E' e → E e) (h' : ∀ a, P a → Ends (f a) R E) :
    Ends (x >>= f) R E := by
  cases x with
  | ok a => exact h' a h
  | error e => exact hpn e h

theorem Ends.ite {c : Prop} [Decidable c] (h : c → Ends x Q E) (h' : ¬c → Ends y Q E) : Ends (if c then x else y) Q E := by
  split
  · exact h ‹c›
  · exact h' ‹¬c›

theorem Ends.imp (h : Ends x P E) (himp : ∀ a, P a → Q a) : Ends x Q E := by
  cases x with
  | ok a => exact himp a h
  | error e => exact h

theorem Ends.imp_error {E' : ε → Prop} (h : Ends x Q E) (himp : ∀ e, E e → E' e) : Ends x Q E' := by
  cases x with
  | ok a => exact h
  | error e => exact himp e h

theorem Ensures.intro (h : ∀ a, x = .ok a → Q a) : Ensures x Q := by
  cases x with
  | ok a => exact h a rfl
  | error e => trivial

theorem Ensures.next (h : ∀ a, x = .ok a → Ensures (f a) R) : Ensures (x >>= f) R := by
  cases x with
  | ok a => exact h a rfl
  | error e => exact trivial

end

/-- A computation returns a value with `Q` if `P` holds, and fails otherwise. -/
structure Gives (x : Except ε α) (P : Prop) (Q : α → Prop) : Prop where
  ok : P → ∃ a, x = .ok a ∧ Q a
  error : ¬P → ∃ e, x = .error e

section
variable {x : Except ε α} {f : α → Except ε β} {P P' : Prop} {Q Q' : α → Prop} {R : β → Prop}

theorem Gives.ret {a : α} (h : Q a) : Gives (.ok a : Except ε α) True Q :=
  ⟨fun _ => ⟨a, rfl, h⟩, fun hnot => (hnot trivial).elim⟩

theorem Gives.bind (h : Gives x P Q) (h' : ∀ a, P → Q a → Gives (f a) P' R) : Gives (x >>= f) (P ∧ P') R := by
  constructor
  · rintro ⟨hp, hp'⟩
    obtain ⟨a, rfl, ha⟩ := h.ok hp
    exact (h' a hp ha).ok hp'
  · intro hnot
    by_cases hp : P
    · obtain ⟨a, rfl, ha⟩ := h.ok hp
      exact (h' a hp ha).error fun hp' => hnot ⟨hp, hp'⟩
    · obtain ⟨e, rfl⟩ := h.error hp
      exact ⟨e, rfl⟩

theorem Gives.map (h : Gives x P Q) (h' : ∀ a, Q a → Gives (f a) True R) : Gives (x >>= f) P R :=
  and_true P ▸ h.bind fun a _ ha => h' a ha

theorem Gives.imp (h : Gives x P Q) (himp : ∀ a, Q a → Q' a) : Gives x P Q' :=
  ⟨fun hp => (h.ok hp).imp fun a ha => ⟨ha.1, himp a ha.2⟩, h.error⟩

end

/-- The rule for a loop over a list, with an invariant of the state and of what is still to be visited. -/
theorem foldlM_invariant {f : σ → β → Except ε σ} (I : List β → σ → Prop)
    (round : ∀ b bs s t, I (b :: bs) s → f s b = .ok t → I bs t) :
    ∀ {bs : List β} {s t : σ}, I bs s → bs.foldlM f s = .ok t → I [] t
  | [], s, t, hs, h => by
    cases h
    exact hs
  | b :: bs, s, t, hs, h => by
    obtain ⟨s₁, hs₁, h⟩ := bind_eq_ok.mp h
    exact foldlM_invariant I round (round b bs s s₁ hs hs₁) h

/-- A loop that replaces the elements `bs` of a collection by new ones. The collection is read through `mem`; `keep` is what
    every round needs and restores. A new element is none that a later round has to replace. -/
theorem foldlM_replace (mem : β → σ → Prop) (keep : σ → Prop) (new : β → β → Prop) (f : σ → β → Except ε σ)
    (round : ∀ s b, keep s → mem b s → ∃ t, f s b = .ok t ∧ keep t ∧ ∀ d, mem d t ↔ (mem d s ∧ d ≠ b) ∨ new b d)
    (apart : ∀ s b c, keep s → mem b s → mem c s → b ≠ c → ¬ new b c) :
    ∀ (bs : List β) (s : σ), bs.Nodup → keep s → (∀ b ∈ bs, mem b s) →
      ∃ t, bs.foldlM f s = .ok t ∧ keep t ∧ ∀ d, mem d t ↔ (mem d s ∧ d ∉ bs) ∨ ∃ b ∈ bs, new b d
  | [], s, _, hs, _ => ⟨s, rfl, hs, fun d => by simp⟩
  | b :: bs, s, hnd, hs, hmem => by
    obtain ⟨hb, hnd⟩ := nodup_cons.mp hnd
    obtain ⟨s₁, h₁, hs₁, hmem₁⟩ := round s b hs (hmem b mem_cons_self)
    have hrs : ∀ c ∈ bs, mem c s₁ := fun c hc =>
      (hmem₁ c).mpr (.inl ⟨hmem c (mem_cons_of_mem b hc), fun heq => hb (heq ▸ hc)⟩)
    obtain ⟨t, ht, hkt, hmmt⟩ := foldlM_replace mem keep new f round apart bs s₁ hnd hs₁ hrs
    refine ⟨t, by rw [foldlM_cons, h₁]; exact ht, hkt, fun d => ?_⟩
    -- A new element of the first round is not among the remaining ones, so it survives them.
    have hsep : new b d → d ∉ bs := fun hnew hd =>
      apart s b d hs (hmem b mem_cons_self) (hmem d (mem_cons_of_mem b hd)) (fun heq => hb (heq ▸ hd)) hnew
    rw [hmmt, hmem₁]
    simp only [mem_cons, not_or, exists_eq_or_imp]
    constructor
    · rintro (⟨⟨hd, hne⟩ | hnew, hnot⟩ | hnew)
      · exact .inl ⟨hd, hne, hnot⟩
      · exact .inr (.inl hnew)
      · exact .inr (.inr hnew)
    · rintro (⟨hd, hne, hnot⟩ | hnew | hnew)
      · exact .inl ⟨.inl ⟨hd, hne⟩, hnot⟩
      · exact .inl ⟨.inr hnew, hsep hnew⟩
      · exact .inr hnew

end TouchHLE.Lib
