import Mathlib.Algebra.Order.Ring.Nat
import Mathlib.Data.List.Nodup
import Mathlib.Data.List.Perm.Basic

/-! Growable arrays as lists: the removal that moves the last element into the gap, the last index that satisfies a predicate,
    the elements that a search visits, and the removal at several indexes. -/

namespace TouchHLE.Lib.Vec
open List
variable {α : Type} {l : List α} {i : Nat} {a b : α} {p : α → Bool}

def swapRemove (l : List α) (i : Nat) : List α :=
  match l.getLast? with
  | none => l
  | some last => (l.set i last).dropLast

theorem swapRemove_append (l : List α) (last : α) (i : Nat) :
    swapRemove (l ++ [last]) i = if i < l.length then l.set i last else l := by
  simp only [swapRemove, getLast?_append, getLast?_singleton, Option.some_or]
  split
  · rename_i h
    rw [set_append_left _ _ h, dropLast_concat]
  · rename_i h
    rw [set_append_right _ _ (by omega)]
    rcases Nat.eq_or_lt_of_le (Nat.le_of_not_lt h) with hi | hi
    · simp [hi]
    · have hset : [last].set (i - l.length) last = [last] := set_eq_of_length_le (by simp; omega)
      rw [hset, dropLast_concat]

theorem cons_swapRemove_perm (h : l[i]? = some a) : (a :: swapRemove l i).Perm l := by
  rcases eq_nil_or_concat l with rfl | ⟨init, last, rfl⟩
  · simp at h
  · rw [concat_eq_append] at h ⊢
    rw [swapRemove_append]
    by_cases hi : i < init.length
    · rw [if_pos hi]
      rw [List.getElem?_append_left hi] at h
      obtain ⟨_, rfl⟩ := List.getElem?_eq_some_iff.mp h
      -- Split the prefix at `i`: its element comes to the front, the last element takes its place.
      conv_rhs => rw [← take_append_drop i init, drop_eq_getElem_cons hi]
      rw [set_eq_take_append_cons_drop, if_pos hi]
      simp only [append_assoc, cons_append]
      refine .trans (.cons _ ?_) perm_middle.symm
      refine perm_middle.trans ?_
      rw [← append_assoc]
      exact (perm_append_singleton _ _).symm
    · rw [if_neg hi]
      obtain ⟨hlt, _⟩ := List.getElem?_eq_some_iff.mp h
      rw [List.length_append, List.length_singleton] at hlt
      obtain rfl : i = init.length := by omega
      obtain rfl : last = a := by simpa using h
      exact (perm_append_singleton _ _).symm

theorem swapRemove_nodup (h : l[i]? = some a) (hl : l.Nodup) : (swapRemove l i).Nodup :=
  (nodup_cons.mp ((cons_swapRemove_perm h).nodup_iff.mpr hl)).2

theorem mem_swapRemove (h : l[i]? = some a) (hl : l.Nodup) : b ∈ swapRemove l i ↔ b ∈ l ∧ b ≠ a := by
  have perm := cons_swapRemove_perm h
  have hnot := (nodup_cons.mp (perm.nodup_iff.mpr hl)).1
  rw [← perm.mem_iff, mem_cons]
  constructor
  · intro hb
    exact ⟨.inr hb, fun heq => hnot (heq ▸ hb)⟩
  · rintro ⟨rfl | hb, hne⟩
    · exact absurd rfl hne
    · exact hb

def rposition (p : α → Bool) (l : List α) : Option Nat := (l.zipIdx.reverse.find? fun e => p e.1).map (·.2)

theorem rposition_eq_some (h : rposition p l = some i) : ∃ a, l[i]? = some a ∧ p a = true := by
  obtain ⟨⟨a, j⟩, hf, rfl⟩ := Option.map_eq_some_iff.mp h
  have hmem := mem_reverse.mp (mem_of_find?_eq_some hf)
  have hp : p a = true := by simpa using find?_some hf
  exact ⟨a, mem_zipIdx_iff_getElem?.mp hmem, hp⟩

theorem rposition_isSome (ha : a ∈ l) (hp : p a = true) : ∃ i, rposition p l = some i := by
  obtain ⟨i, hi⟩ := mem_iff_getElem?.mp ha
  have hso : (l.zipIdx.reverse.find? fun e => p e.1).isSome :=
    find?_isSome.mpr ⟨(a, i), mem_reverse.mpr (mem_zipIdx_iff_getElem?.mpr hi), hp⟩
  obtain ⟨e, he⟩ := Option.isSome_iff_exists.mp hso
  exact ⟨e.2, by rw [rposition, he]; rfl⟩

def upTo (p : α → Bool) : List α → List α
  | [] => []
  | a :: l => a :: if p a then [] else upTo p l

theorem take_upTo (p : α → Bool) (l : List α) : l.take (upTo p l).length = upTo p l := by
  induction l with
  | nil => rfl
  | cons a l ih =>
    rw [upTo]
    split
    · rfl
    · rw [length_cons, take_succ_cons, ih]

theorem length_upTo_le (p : α → Bool) (l : List α) : (upTo p l).length ≤ l.length := by
  have hlen := congrArg List.length (take_upTo p l)
  rw [length_take] at hlen
  omega

theorem mem_upTo_head (p : α → Bool) (a : α) (l : List α) : a ∈ upTo p (a :: l) := mem_cons_self

theorem mem_upTo_tail (ha : p a = false) (hb : b ∈ upTo p l) : b ∈ upTo p (a :: l) := by
  rw [upTo, ha]
  exact mem_cons_of_mem a hb

theorem getElem?_findIdx (p : α → Bool) (l : List α) : l[l.findIdx p]? = l.find? p := by
  induction l with
  | nil => rfl
  | cons a l ih =>
    rw [findIdx_cons, find?_cons]
    cases p a with
    | true => rfl
    | false => exact ih

/-! ### Removal at several indexes -/

def positions (p : α → Bool) (l : List α) : List Nat := (List.range l.length).filter fun i => l[i]?.any p

theorem positions_cons (p : α → Bool) (a : α) (l : List α) :
    positions p (a :: l) = (if p a then [0] else []) ++ (positions p l).map .succ := by
  have htl : ((fun i => (a :: l)[i]?.any p) ∘ Nat.succ) = fun i => l[i]?.any p := by
    rfl
  rw [positions, length_cons, range_succ_eq_map, filter_cons, filter_map, htl]
  cases hp : p a with
  | false | true => simp [hp, positions]

theorem length_positions (p : α → Bool) (l : List α) : (positions p l).length = l.countP p := by
  induction l with
  | nil => rfl
  | cons a l ih =>
    rw [positions_cons, length_append, length_map, ih, countP_cons]
    split <;> simp [Nat.add_comm]

theorem mem_positions : i ∈ positions p l ↔ ∃ a, l[i]? = some a ∧ p a = true := by
  rw [positions, mem_filter, mem_range, Option.any_eq_true]
  refine ⟨And.right, fun h => ⟨?_, h⟩⟩
  obtain ⟨a, ha, -⟩ := h
  exact (List.getElem?_eq_some_iff.mp ha).1

theorem pairwise_positions (p : α → Bool) (l : List α) : (positions p l).Pairwise (· < ·) := pairwise_lt_range.filter _

theorem filter_of_positions_nil (h : positions p l = []) : l.filter (fun a => !p a) = l := by
  rw [filter_eq_self]
  intro a ha
  obtain ⟨i, hi⟩ := mem_iff_getElem?.mp ha
  by_contra hp
  have hmem : i ∈ positions p l := mem_positions.mpr ⟨a, hi, by simpa using hp⟩
  rw [h] at hmem
  cases hmem

theorem eraseIdx_of_positions_singleton (h : positions p l = [i]) : l.eraseIdx i = l.filter (fun a => !p a) := by
  induction l generalizing i with
  | nil => cases h
  | cons a l ih =>
    rw [positions_cons] at h
    cases hp : p a with
    | true =>
      simp only [hp, if_true, cons_append, nil_append, List.cons.injEq, map_eq_nil_iff] at h
      obtain ⟨rfl, hnil⟩ := h
      simp [hp, filter_of_positions_nil hnil]
    | false =>
      simp only [hp, Bool.false_eq_true, if_false, nil_append] at h
      obtain ⟨j, hj, rfl⟩ := map_eq_singleton_iff.mp h
      simp [hp, ih hj]

def eraseAll (l : List α) : List Nat → Option (List α)
  | [] => some l
  | i :: is => if i < l.length then eraseAll (l.eraseIdx i) is else none

theorem getElem?_of_eraseAll {l' : List α} {is : List Nat} {j : Nat} (h : ∀ i ∈ is, j < i)
    (heq : eraseAll l is = some l') : l'[j]? = l[j]? := by
  induction is generalizing l with
  | nil =>
    cases heq
    rfl
  | cons i is ih =>
    rw [eraseAll] at heq
    split at heq
    · rw [ih (fun i' hi' => h i' (mem_cons_of_mem _ hi')) heq, getElem?_eraseIdx_of_lt (h i mem_cons_self)]
    · cases heq

/-- Erasing at the positions of the elements with `p`, from the first to the last, leaves the others exactly when there is
    at most one: the elements behind move, and the second one is missed. -/
theorem eraseAll_positions_iff : eraseAll l (positions p l) = some (l.filter fun a => !p a) ↔ l.countP p ≤ 1 := by
  rw [← length_positions]
  cases hpos : positions p l with
  | nil => simp [eraseAll, filter_of_positions_nil hpos]
  | cons i is =>
    have hi : i < l.length := by
      obtain ⟨a, ha, -⟩ := mem_positions.mp (hpos ▸ List.mem_cons_self)
      exact (List.getElem?_eq_some_iff.mp ha).1
    rw [eraseAll, if_pos hi]
    cases is with
    | nil => simp [eraseAll, eraseIdx_of_positions_singleton hpos]
    | cons j js =>
      refine iff_of_false (fun heq => ?_) (by simp)
      have hsrt := pairwise_positions p l
      rw [hpos, pairwise_cons, pairwise_cons] at hsrt
      have hij := hsrt.1 j mem_cons_self
      have hj : j ∈ positions p l := by
        rw [hpos]
        exact mem_cons_of_mem i mem_cons_self
      obtain ⟨a, ha, hp⟩ := mem_positions.mp hj
      -- The element at `j` has moved to `j - 1`, before all the indexes that are left.
      have hsty : (l.filter fun a => !p a)[j - 1]? = some a := by
        rw [getElem?_of_eraseAll ?_ heq, getElem?_eraseIdx_of_ge (by omega)]
        · rw [Nat.sub_add_cancel (by omega)]
          exact ha
        · intro k hk
          rcases mem_cons.mp hk with rfl | hk
          · omega
          · have := hsrt.2.1 k hk
            omega
      have hmem := mem_of_getElem? hsty
      rw [mem_filter, hp] at hmem
      cases hmem.2

end TouchHLE.Lib.Vec
