import TouchHLE.Lib.Outcome

/-! A queue of nodes to visit. Visiting a node changes a state, and its successors go to the end of the queue. In a forest
    every node is visited at most once, which bounds the number of rounds. -/

namespace TouchHLE.Lib
open List
variable {σ α ε : Type}

/-- Visit nodes until the queue is empty; `late` is the outcome if that takes more rounds than given. -/
def walk (next : α → List α) (visit : σ → α → Except ε σ) (late : ε) : Nat → σ → List α → Except ε σ
  | _, s, [] => .ok s
  | 0, _, _ :: _ => .error late
  | n + 1, s, a :: queue => do
    let t ← visit s a
    walk next visit late n t (queue ++ next a)

variable {next : α → List α} {visit : σ → α → Except ε σ} {late : ε} {n : Nat} {s t : σ} {queue done : List α}

section
variable (I : List α → List α → σ → Prop)
  (round : ∀ done a queue s t, I done (a :: queue) s → visit s a = .ok t → I (done ++ [a]) (queue ++ next a) t)
  (hsr : I done queue s)
include round hsr

/-- The rule for a walk, with an invariant of the nodes visited so far, of the queue and of the state. -/
theorem walk_invariant

    (h : walk next visit late n s queue = .ok t) : ∃ all, I all [] t := by
  induction n generalizing done queue s with
  | zero =>
    cases queue with
    | nil =>
      cases h
      exact ⟨done, hsr⟩
    | cons a queue => cases h
  | succ n ih =>
    cases queue with
    | nil =>
      cases h
      exact ⟨done, hsr⟩
    | cons a queue =>
      obtain ⟨s₁, hvis, hrs⟩ := bind_eq_ok.mp h
      exact ih (round done a queue s s₁ hsr hvis) hrs

/-- A walk that does not return is late, or cannot visit a node that it comes to. -/
theorem walk_error

    {e : ε} (h : walk next visit late n s queue = .error e) :
    e = late ∨ ∃ done a queue s, I done (a :: queue) s ∧ visit s a = .error e := by
  induction n generalizing done queue s with
  | zero =>
    cases queue with
    | nil => cases h
    | cons a queue =>
      cases h
      exact .inl rfl
  | succ n ih =>
    cases queue with
    | nil => cases h
    | cons a queue =>
      rcases bind_eq_error.mp h with hfs | ⟨s₁, hvis, hrs⟩
      · exact .inr ⟨done, a, queue, s, hsr, hfs⟩
      · exact ih (round done a queue s s₁ hsr hvis) hrs

end

structure Forest (next : α → List α) (roots : List α) : Prop where
  nodup : ∀ a, (next a).Nodup
  disjoint : ∀ a b c, c ∈ next a → c ∈ next b → a = b
  roots : ∀ a c, c ∈ next a → c ∉ roots

/-- The nodes visited so far and the queue, in a forest: none of them occurs twice, and each is a root or the successor of a
    visited one. -/
structure Visiting (next : α → List α) (roots done queue : List α) : Prop where
  nodup : (done ++ queue).Nodup
  origin : ∀ c ∈ done ++ queue, c ∈ roots ∨ ∃ a ∈ done, c ∈ next a

theorem Visiting.round {roots : List α} {a : α} (hfrs : Forest next roots) (h : Visiting next roots done (a :: queue)) :
    Visiting next roots (done ++ [a]) (queue ++ next a) := by
  have hmem : ∀ c, c ∈ done ++ [a] ++ (queue ++ next a) ↔ c ∈ done ++ a :: queue ∨ c ∈ next a := fun c => by
    simp only [mem_append, mem_cons, not_mem_nil, or_false]
    tauto
  have hfh : a ∉ done := fun hin =>
    (nodup_append.mp h.nodup).2.2 a hin a mem_cons_self rfl
  have hap : ∀ c ∈ done ++ a :: queue, c ∉ next a := by
    intro c hc hnx
    rcases h.origin c hc with hrt | ⟨b, hb, hcb⟩
    · exact hfrs.roots a c hnx hrt
    · exact hfh (hfrs.disjoint a b c hnx hcb ▸ hb)
  refine ⟨?_, fun c hc => ?_⟩
  · have hli : done ++ [a] ++ (queue ++ next a) = done ++ a :: queue ++ next a := by simp
    rw [hli]
    exact nodup_append.mpr ⟨h.nodup, hfrs.nodup a, fun c hc d hd heq => hap c hc (heq ▸ hd)⟩
  · rcases (hmem c).mp hc with hold | hnew
    · rcases h.origin c hold with hrt | ⟨b, hb, hcb⟩
      · exact .inl hrt
      · exact .inr ⟨b, mem_append_left _ hb, hcb⟩
    · exact .inr ⟨a, mem_append_right _ mem_cons_self, hnew⟩

/-- A walk over a forest is not late if it may take a round for every node. -/
theorem walk_ne_late {roots nodes : List α} (hfrs : Forest next roots) (hns : ∀ a, ∀ c ∈ next a, c ∈ nodes)
    (hrts : ∀ c ∈ roots, c ∈ nodes) (hvis : ∀ s a, visit s a ≠ .error late) (h : Visiting next roots done queue)
    (hn : nodes.length ≤ n + done.length) : walk next visit late n s queue ≠ .error late := by
  induction n generalizing done queue s with
  | zero =>
    cases queue with
    | nil => exact fun herr => (by cases herr)
    | cons a queue =>
      -- More nodes than there are would have been met.
      have hsub : done ++ a :: queue ⊆ nodes := by
        intro c hc
        rcases h.origin c hc with hrt | ⟨b, -, hcb⟩
        · exact hrts c hrt
        · exact hns b c hcb
      have hlen := (subperm_of_subset h.nodup hsub).length_le
      rw [length_append, length_cons] at hlen
      omega
  | succ n ih =>
    cases queue with
    | nil => exact fun herr => (by cases herr)
    | cons a queue =>
      intro herr
      rcases bind_eq_error.mp herr with hfs | ⟨s₁, -, hrs⟩
      · exact hvis s a hfs
      · refine ih (h.round hfrs) ?_ hrs
        rw [length_append, length_singleton]
        omega

end TouchHLE.Lib
