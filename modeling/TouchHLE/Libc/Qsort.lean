import TouchHLE.Lib.Outcome

/-! Sorting: `qsort_generic` of `touchHLE/src/libc/stdlib/qsort.rs`. Arithmetic on the `u32` indexes is checked. The depth of the
    recursion is bounded by fuel, and the stack of the host is not modelled. -/

namespace TouchHLE.Libc.Qsort
open Lib List

inductive Panic
  | overflow | index | fuel
deriving DecidableEq

def add (a b : Nat) : Except Panic Nat := if a + b < 2 ^ 32 then .ok (a + b) else .error .overflow

def sub (a b : Nat) : Except Panic Nat := if b ≤ a then .ok (a - b) else .error .overflow

section
variable {τ : Type} (compar : τ → Nat → Nat → Except Panic (Int × τ)) (swap : τ → Nat → Nat → Except Panic τ)

/-- A round of the loop of `qsort_rec`, with the data and the separator. -/
def partitionRound (pivot : Nat) (state : τ × Nat) (i : Nat) : Except Panic (τ × Nat) := do
  let (order, data) ← compar state.1 i pivot
  if order < 0 then do
    let data ← swap data i state.2
    let separator ← add state.2 1
    .ok (data, separator)
  else .ok (data, state.2)

def qsortRec : Nat → τ → Nat → Nat → Except Panic τ
  | 0, _, _, _ => .error .fuel
  | fuel + 1, data, low, hi =>
    if low ≥ hi then .ok data
    else do
      let first ← add low 1
      let (data, separator) ← (List.range' first (hi + 1 - first)).foldlM (partitionRound compar swap low) (data, first)
      let last ← sub separator 1
      let data ← swap data low last
      let data ← (if separator > 1 then sub separator 2 >>= qsortRec fuel data low else .ok data)
      qsortRec fuel data separator hi

def qsortGeneric (fuel : Nat) (data : τ) (nitems : Nat) : Except Panic τ :=
  if nitems < 2 then .ok data else sub nitems 1 >>= qsortRec compar swap fuel data 0

end

variable {σ α : Type} (cmp : σ → List α → Nat → Nat → Int × σ) {s : σ} {xs X Y Z A M S L T : List α} {a b p : α} {i j fuel : Nat}

/-- A comparator that has a state of its own, and may look at everything but changes no element. -/
def compare (data : σ × List α) (i j : Nat) : Except Panic (Int × σ × List α) :=
  if i < data.2.length ∧ j < data.2.length then
    let (order, s) := cmp data.1 data.2 i j
    .ok (order, s, data.2)
  else .error .index

def swap (data : σ × List α) (i j : Nat) : Except Panic (σ × List α) := do
  let (some a, some b) := (data.2[i]?, data.2[j]?) | .error .index
  .ok (data.1, (data.2.set i b).set j a)

structure Orders (le : α → α → Prop) : Prop where
  total : ∀ a b, le a b ∨ le b a
  trans : ∀ a b c, le a b → le b c → le a c
  less : ∀ s xs i j a b, xs[i]? = some a → xs[j]? = some b → ((cmp s xs i j).1 < 0 ↔ ¬le b a)

theorem compare_at (s : σ) (hi : X[i]? = some a) (hj : X[j]? = some b) :
    ∃ order s', compare cmp (s, X) i j = .ok (order, s', X) ∧ ∀ le, Orders cmp le → (order < 0 ↔ ¬le b a) := by
  refine ⟨_, _, if_pos ⟨?_, ?_⟩, fun le h => h.less s X i j a b hi hj⟩
  · exact (List.getElem?_eq_some_iff.mp hi).1
  · exact (List.getElem?_eq_some_iff.mp hj).1

theorem swap_apart (h : i = (X ++ a :: Y).length ∧ j = X.length ∨ i = X.length ∧ j = (X ++ a :: Y).length) :
    swap (s, X ++ a :: Y ++ b :: Z) i j = .ok (s, X ++ b :: Y ++ a :: Z) := by
  rcases h with ⟨rfl, rfl⟩ | ⟨rfl, rfl⟩ <;> simp [swap]

/-- An element is moved in front of those between the separator and it. -/
theorem swap_front : ∃ Y', swap (s, X ++ Y ++ a :: Z) (X ++ Y).length X.length = .ok (s, X ++ [a] ++ Y' ++ Z) ∧ Y'.Perm Y := by
  cases Y with
  | nil => exact ⟨[], by simp [swap], .nil⟩
  | cons b Y =>
    refine ⟨Y ++ [b], ?_, perm_append_singleton b Y⟩
    rw [swap_apart (.inl ⟨rfl, rfl⟩)]
    simp

theorem swap_pivot : ∃ Y', swap (s, X ++ a :: Y ++ Z) X.length (X ++ Y).length = .ok (s, X ++ Y' ++ a :: Z) ∧ Y'.Perm Y := by
  rcases eq_nil_or_concat Y with rfl | ⟨Y, b, rfl⟩
  · exact ⟨[], by simp [swap], .nil⟩
  · rw [concat_eq_append]
    refine ⟨b :: Y, ?_, (perm_append_singleton b Y).symm⟩
    have hswp := swap_apart (s := s) (a := a) (b := b) (X := X) (Y := Y) (Z := Z) (.inr ⟨rfl, rfl⟩)
    simpa using hswp

/-- The loop keeps the lesser elements `S` before the separator and the others `L` behind it. -/
theorem partition_loop (T : List α) : ∀ s S L, (A ++ p :: S ++ L ++ T).length < 2 ^ 32 →
    ∃ s' S' L', (List.range' (A ++ p :: S ++ L).length T.length).foldlM (partitionRound (compare cmp) swap A.length)
        ((s, A ++ p :: S ++ L ++ (T ++ Z)), (A ++ p :: S).length) =
      .ok ((s', A ++ p :: S' ++ (L' ++ Z)), (A ++ p :: S').length) ∧ (S' ++ L').Perm (S ++ L ++ T) ∧
      ∀ le, Orders cmp le → (∀ a ∈ S, le a p) → (∀ a ∈ L, le p a) → (∀ a ∈ S', le a p) ∧ ∀ a ∈ L', le p a := by
  induction T with
  | nil => exact fun s S L _ => ⟨s, S, L, by simp, by simp, fun _ _ hS hL => ⟨hS, hL⟩⟩
  | cons x T ih =>
    intro s S L hlen
    obtain ⟨order, s₁, hcop, hod⟩ := compare_at cmp s (a := x) (b := p) (X := A ++ p :: S ++ L ++ (x :: T ++ Z))
      (getElem?_append_right (Nat.le_refl _) |>.trans (by simp)) (j := A.length) (by simp)
    rw [length_cons, range'_succ, foldlM_cons, partitionRound, hcop, ok_bind]
    dsimp only
    by_cases hlss : order < 0
    · obtain ⟨L₁, hswp, hpr₁⟩ := swap_front (Y := L)
      obtain ⟨s', S', L', hloo, hpr, hpar⟩ := ih s₁ (S ++ [x]) L₁ (by simpa [hpr₁.length_eq, Nat.add_assoc] using hlen)
      refine ⟨s', S', L', ?_, ?_, fun le h hS hL => hpar le h ?_ fun a ha => hL a (hpr₁.mem_iff.mp ha)⟩
      · rw [if_pos hlss, cons_append, hswp, ok_bind, add, if_pos (by simp at hlen ⊢; omega)]
        simpa [hpr₁.length_eq, Nat.add_assoc, Nat.add_comm 1] using hloo
      · have hmo := ((hpr₁.append_right T).cons x).trans perm_middle.symm
        simpa using hpr.trans (by simpa using hmo.append_left S)
      · simpa [or_imp, forall_and] using ⟨hS, (h.total x p).resolve_right ((hod le h).mp hlss)⟩
    · obtain ⟨s', S', L', hloo, hpr, hpar⟩ := ih s₁ S (L ++ [x]) (by simpa using hlen)
      refine ⟨s', S', L', ?_, by simpa using hpr, fun le h hS hL => hpar le h hS ?_⟩
      · rw [if_neg hlss]
        simpa [Nat.add_assoc] using hloo
      · simpa [or_imp, forall_and] using ⟨hL, not_not.mp (mt (hod le h).mpr hlss)⟩

/-- The elements `M` between `A` and `Z` are permuted, and sorted if the comparator orders them. -/
def Sorts (result : Except Panic (σ × List α)) (A M Z : List α) : Prop :=
  ∃ s' M', result = .ok (s', A ++ M' ++ Z) ∧ M'.Perm M ∧ ∀ le, Orders cmp le → M'.Pairwise le

theorem sorts_short (s : σ) (A Z : List α) (h : M.length < 2) : Sorts cmp (.ok (s, A ++ M ++ Z)) A M Z :=
  ⟨s, M, rfl, .refl M, fun _ _ => pairwise_iff_getElem.mpr fun _ _ _ _ _ => by omega⟩

theorem qsortRec_sorts (fuel : Nat) : ∀ s A M Z hi, hi + 1 = A.length + M.length →
    M.length < fuel → A.length + M.length < 2 ^ 32 →
    Sorts cmp (qsortRec (compare cmp) swap fuel (s, A ++ M ++ Z) A.length hi) A M Z := by
  induction fuel with
  | zero => exact fun _ _ _ _ _ _ h => absurd h (Nat.not_lt_zero _)
  | succ fuel ih =>
    intro s A M Z hi hhi hfl hlen
    by_cases hle : A.length ≥ hi
    · rw [qsortRec, if_pos hle]
      exact sorts_short cmp s A Z (by omega)
    · obtain ⟨p, T, rfl⟩ := exists_cons_of_length_pos (show 0 < M.length by omega)
      obtain ⟨s₁, S, L, hloo, hpr, hpar⟩ := partition_loop cmp T s [] [] (by simpa using hlen)
      obtain ⟨S₁, hswp, hpr₁⟩ := swap_pivot (Y := S)
      have hS₁ := hpr₁.length_eq
      have hcn := hpr.length_eq
      simp only [length_append, length_cons, nil_append] at hcn hlen hhi hfl
      have hlf : Sorts cmp (if A.length + (S.length + 1) > 1 then sub (A.length + (S.length + 1)) 2 >>=
          qsortRec (compare cmp) swap fuel (s₁, A ++ S₁ ++ p :: (L ++ Z)) A.length
          else .ok (s₁, A ++ S₁ ++ p :: (L ++ Z))) A S₁ (p :: (L ++ Z)) := by
        by_cases hpos : A.length + (S.length + 1) > 1
        · rw [if_pos hpos, sub, if_pos (by exact hpos), ok_bind]
          exact ih s₁ A S₁ (p :: (L ++ Z)) _ (by omega) (by omega) (by omega)
        · rw [if_neg hpos]
          exact sorts_short cmp s₁ A _ (by omega)
      obtain ⟨s₂, S₂, hlf, hpr₂, hsrt₂⟩ := hlf
      have hS := hpr₂.trans hpr₁
      have hsep : A.length + (S.length + 1) = (A ++ S₂ ++ [p]).length := by simp [hS.length_eq]
      obtain ⟨s₃, L₁, hrgh, hpr₃, hsrt₃⟩ := ih s₂ (A ++ S₂ ++ [p]) L Z hi (by omega) (by omega) (by omega)
      refine ⟨s₃, S₂ ++ p :: L₁, ?_, ?_, fun le h => ?_⟩
      · rw [append_nil, length_append, length_singleton] at hloo
        rw [qsortRec, if_neg hle, add, if_pos (by omega), ok_bind, show hi + 1 - (A.length + 1) = T.length by omega,
          show A ++ p :: T ++ Z = A ++ [p] ++ (T ++ Z) by simp, hloo, ok_bind, length_append, length_cons]
        dsimp only
        rw [sub, if_pos (by omega), ok_bind, show A.length + (S.length + 1) - 1 = (A ++ S).length by simp, hswp, ok_bind,
          hlf, ok_bind, hsep]
        simpa using hrgh
      · simpa using perm_middle.trans (((hS.append hpr₃).trans hpr).cons p)
      · obtain ⟨hlss, hgrt⟩ := hpar le h (by simp) (by simp)
        refine pairwise_append.mpr ⟨hsrt₂ le h, pairwise_cons.mpr ⟨?_, hsrt₃ le h⟩, fun a ha b hb => ?_⟩
        · exact fun a ha => hgrt a (hpr₃.mem_iff.mp ha)
        · have hap := hlss a (hS.mem_iff.mp ha)
          rcases mem_cons.mp hb with rfl | hb
          · exact hap
          · exact h.trans a p b hap (hgrt b (hpr₃.mem_iff.mp hb))

/-- Sorting ends without a panic, whatever the comparator answers, and only permutes the elements. -/
theorem qsortGeneric_sorts (hlen : xs.length < 2 ^ 32) (hfuel : xs.length < fuel) :
    ∃ s' ys, qsortGeneric (compare cmp) swap fuel (s, xs) xs.length = .ok (s', ys) ∧ ys.Perm xs ∧
      ∀ le, Orders cmp le → ys.Pairwise le := by
  have hsorts : Sorts cmp (qsortGeneric (compare cmp) swap fuel (s, xs) xs.length) [] xs [] := by
    by_cases hshort : xs.length < 2
    · rw [qsortGeneric, if_pos hshort]
      simpa using sorts_short cmp s [] [] hshort
    · rw [qsortGeneric, if_neg hshort, sub, if_pos (by omega), ok_bind]
      simpa using qsortRec_sorts cmp fuel s [] xs [] (xs.length - 1) (by simp; omega) hfuel (by simpa using hlen)
  simpa [Sorts] using hsorts

/-- A comparator that always answers -1, on two elements. -/
theorem qsortGeneric_sorts_inconsistent :
    ∃ s' ys, qsortGeneric (compare fun (s : Nat) _ _ _ => (-1, s + 1)) swap 3 (0, [5, 7]) 2 = .ok (s', ys) ∧ ys.Perm [5, 7] ∧
      ∀ le, Orders (fun (s : Nat) _ _ _ => (-1, s + 1)) le → ys.Pairwise le :=
  qsortGeneric_sorts _ (by decide) (by decide)

end TouchHLE.Libc.Qsort
