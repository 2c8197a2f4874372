import TouchHLE.Lib.Outcome

/-! Reading elements one after the other, where an element that was read can be put back. A reader may be told the index
    of what is to be read, as one of an array is, or ignore it, as one of a stream does. -/

namespace TouchHLE.Lib

structure Reader (α σ ε : Type) where
  getc : Nat → σ → Except ε (Option α × σ)
  ungetc : α → σ → Except ε σ

namespace Reader
variable {α σ ε : Type} {r : Reader α σ ε} {stop : Option α} {rewinds : Bool} {R : Nat → Nat → List α → σ → Prop}

/-- In the states `R k i rest`, the reader is asked for index `i` next and delivers `rest`, then `stop`; it can be read
    beyond the end `k` times. A reader that rewinds ignores the index and moves back by what is put back; one that does not
    ignores what is put back. -/
structure Reads (r : Reader α σ ε) (stop : Option α) (rewinds : Bool) (R : Nat → Nat → List α → σ → Prop) : Prop where
  cons : ∀ {k i c rest s}, R k i (c :: rest) s → ∃ s', r.getc i s = .ok (some c, s') ∧ R k (i + 1) rest s'
  back : ∀ {k l i c rest s s'}, R k i (c :: rest) s → R l (i + 1) rest s' →
    ∃ s'', r.ungetc c s' = .ok s'' ∧ R l i (c :: rest) s''
  nil : ∀ {k i s}, R (k + 1) i [] s → ∃ s', r.getc i s = .ok (stop, s') ∧ R k i [] s' ∧
    ∀ c, stop = some c → ∃ s'', r.ungetc c s' = .ok s'' ∧ R (k + 1) i [] s''
  mono : ∀ {k i rest s}, R (k + 1) i rest s → R k i rest s
  place : rewinds = true → ∀ {k i j rest s}, R k i rest s → R k j rest s
  stay : rewinds = false → ∀ {k i c rest s}, R k i rest s → ∃ s', r.ungetc c s = .ok s' ∧ R k i rest s'

def next (stop : Option α) (rest : List α) : Option α := rest.head?.or stop

@[simp] theorem next_nil : next stop [] = stop := rfl

@[simp] theorem next_cons (c : α) (rest : List α) : next stop (c :: rest) = some c := rfl

variable {k i : Nat} {rest : List α} {s : σ}

theorem Reads.mono_le (h : r.Reads stop rewinds R) {l : Nat} (hle : l ≤ k) (hs : R k i rest s) : R l i rest s := by
  induction hle with
  | refl => exact hs
  | step _ ih => exact ih (h.mono hs)

theorem Reads.peek (h : r.Reads stop rewinds R) (hs : R (k + 1) i rest s) :
    ∃ s', r.getc i s = .ok (next stop rest, s') ∧ (next stop rest = none → R k i rest s') ∧
      ∀ c, next stop rest = some c → ∃ s'', r.ungetc c s' = .ok s'' ∧ R (k + 1) i rest s'' := by
  cases rest with
  | nil =>
    obtain ⟨s', hget, hs', hbc⟩ := h.nil hs
    exact ⟨s', hget, fun _ => hs', hbc⟩
  | cons c rest =>
    obtain ⟨s', hget, hs'⟩ := h.cons hs
    refine ⟨s', hget, ?_, ?_⟩
    · intro hno
      cases hno
    · intro d hd
      cases hd
      exact h.back hs hs'

/-- An element is put back although the index has moved on: only a reader that rewinds delivers it again. -/
theorem Reads.again (h : r.Reads stop rewinds R) {c : α} {s' : σ} (hs : R k i (c :: rest) s) (hs' : R k (i + 1) rest s') :
    ∃ s'', r.ungetc c s' = .ok s'' ∧ R k (i + 1) (if rewinds then c :: rest else rest) s'' := by
  cases hrwn : rewinds with
  | false => exact h.stay hrwn hs'
  | true =>
    obtain ⟨s'', hbc, hs''⟩ := h.back hs hs'
    exact ⟨s'', hbc, h.place hrwn hs''⟩

end Reader
end TouchHLE.Lib
