import Mathlib.Data.List.Basic
import Mathlib.Algebra.Order.Ring.Nat

/-! Tables with reusable slots. A new element takes the first empty slot, or one that is added at the end. -/

namespace TouchHLE.Lib.Slots
open List
variable {α : Type} {slots : List (Option α)} {i : Nat} {a : α}

def get (slots : List (Option α)) (i : Nat) : Option α := slots[i]?.join

def place (slots : List (Option α)) (a : α) : Nat × List (Option α) :=
  match slots.findIdx? Option.isNone with
  | some i => (i, slots.set i (some a))
  | none => (slots.length, slots ++ [some a])

theorem get_eq_none_of_length_le (h : slots.length ≤ i) : get slots i = none := by
  rw [get, getElem?_eq_none h]
  rfl

theorem lt_length_of_get (h : get slots i = some a) : i < slots.length := by
  by_contra hlt
  rw [get_eq_none_of_length_le (Nat.le_of_not_lt hlt)] at h
  cases h

theorem getElem?_of_get (h : get slots i = some a) : slots[i]? = some (some a) := by
  cases hi : slots[i]? with
  | none => simp [get, hi] at h
  | some slot => simpa [get, hi] using h

/-- The new slot was free, those before it are in use, and the others stay as they are. -/
structure Placed (slots : List (Option α)) (a : α) (i : Nat) (after : List (Option α)) : Prop where
  free : get slots i = none
  used : ∀ j < i, ∃ b, get slots j = some b
  le : i ≤ slots.length
  new : get after i = some a
  same : ∀ j, j ≠ i → get after j = get slots j
  length : after.length = max slots.length (i + 1)

theorem place_placed (slots : List (Option α)) (a : α) : Placed slots a (place slots a).1 (place slots a).2 := by
  rw [place]
  cases hfn : slots.findIdx? Option.isNone with
  | some i =>
    obtain ⟨hlt, hno, hbe⟩ := findIdx?_eq_some_iff_getElem.mp hfn
    refine ⟨?_, fun j hj => ?_, hlt.le, ?_, fun j hj => ?_, ?_⟩
    · rw [get, getElem?_eq_getElem hlt, Option.isNone_iff_eq_none.mp hno]
      rfl
    · have hso := hbe j hj
      rw [Bool.not_eq_true, Option.isNone_eq_false_iff, Option.isSome_iff_exists] at hso
      obtain ⟨b, hb⟩ := hso
      exact ⟨b, by rw [get, getElem?_eq_getElem (hj.trans hlt), hb]; rfl⟩
    · rw [get, getElem?_set_self hlt]
      rfl
    · rw [get, getElem?_set_ne hj.symm]
      rfl
    · rw [length_set, Nat.max_eq_left hlt]
  | none =>
    have hall := findIdx?_eq_none_iff.mp hfn
    refine ⟨get_eq_none_of_length_le (Nat.le_refl _), fun j hj => ?_, Nat.le_refl _, ?_, fun j hj => ?_, ?_⟩
    · have hso := hall _ (getElem_mem hj)
      rw [Option.isNone_eq_false_iff, Option.isSome_iff_exists] at hso
      obtain ⟨b, hb⟩ := hso
      exact ⟨b, by rw [get, getElem?_eq_getElem hj, hb]; rfl⟩
    · rw [get, getElem?_concat_length]
      rfl
    · rcases Nat.lt_or_gt_of_ne hj with hlt | hgt
      · rw [get, getElem?_append_left hlt, get]
      · rw [get_eq_none_of_length_le hgt.le, get_eq_none_of_length_le]
        rw [length_append, length_singleton]
        exact hgt
    · rw [length_append, length_singleton, Nat.max_eq_right (Nat.le_succ _)]

theorem get_set {o : Option α} (h : o.isSome → i < slots.length) (j : Nat) :
    get (slots.set i o) j = if j = i then o else get slots j := by
  by_cases hj : j = i
  · subst hj
    rw [if_pos rfl, get, getElem?_set, if_pos rfl]
    cases o with
    | none => split <;> rfl
    | some a => rw [if_pos (h rfl), Option.join_some]
  · rw [if_neg hj, get, getElem?_set_ne (Ne.symm hj), get]

structure Same (slots after : List (Option α)) : Prop where
  length : after.length = slots.length
  used : ∀ i, (get after i).isSome = (get slots i).isSome

theorem Same.refl (slots : List (Option α)) : Same slots slots := ⟨rfl, fun _ => rfl⟩

theorem same_set (h : get slots i = some a) (b : α) : Same slots (slots.set i (some b)) := by
  refine ⟨length_set, fun j => ?_⟩
  rw [get_set fun _ => lt_length_of_get h]
  split
  · subst j
    rw [h]
    rfl
  · rfl

end TouchHLE.Lib.Slots
