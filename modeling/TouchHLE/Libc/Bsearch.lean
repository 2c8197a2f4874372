import TouchHLE.Lib.Outcome

/-! Binary search: `bsearch` of `touchHLE/src/libc/stdlib.rs`. The callback is guest code with a state of its own, which may stop
    the emulator. Arithmetic on `u32` wraps. -/

namespace TouchHLE.Libc.Bsearch
open Lib

inductive Panic
  | callback | fuel
deriving DecidableEq

section
variable {τ : Type}

def search (compare : τ → Nat → Except Panic (Int × τ)) (items itemSize : Nat) :
    Nat → Nat → Nat → τ → Except Panic (Nat × τ)
  | 0, _, _, _ => .error .fuel
  | fuel + 1, low, len, s => do
    if len > 0 then
      let halfLen := len / 2
      let item := (items + itemSize * (low + halfLen)) % 2 ^ 32
      let (result, s) ← compare s item
      if result = 0 then .ok (item, s)
      else if result > 0 then search compare items itemSize fuel (low + halfLen + 1) (len - halfLen - 1) s
      else search compare items itemSize fuel low halfLen s
    else .ok (0, s)

def bsearch (compare : τ → Nat → Nat → Except Panic (Int × τ)) (key items itemCount itemSize : Nat) (s : τ) :
    Except Panic (Nat × τ) :=
  search (fun s item => compare s key item) items itemSize (itemCount + 1) 0 itemCount s

/-- First the elements that the key is greater than, then those that are equal to it, then the others. -/
def Ordered (order : Nat → Int) (n : Nat) : Prop :=
  ∀ i j, i < j → j < n → (0 < order j → 0 < order i) ∧ (order i < 0 → order j < 0)

def Follows (compare : τ → Nat → Except Panic (Int × τ)) (items itemSize n : Nat) (order : Nat → Int) : Prop :=
  ∀ s i r s', i < n → compare s (items + itemSize * i) = .ok (r, s') → (0 < r ↔ 0 < order i) ∧ (r < 0 ↔ order i < 0)

def Finds (items itemSize n : Nat) (order : Nat → Int) (p : Nat) : Prop :=
  (∃ i < n, order i = 0 ∧ p = items + itemSize * i) ∨ p = 0 ∧ ∀ i < n, order i ≠ 0

variable {compare : τ → Nat → Except Panic (Int × τ)} {items itemSize n : Nat}

/-- The search goes on in a part of the array that has all equal elements. -/
theorem search_finds (hitm : items < 2 ^ 32) (hft : items + itemSize * n ≤ 2 ^ 32)
    (han : ∀ s i, i < n → ∃ r s', compare s (items + itemSize * i) = .ok (r, s')) :
    ∀ (fuel : Nat) {low len : Nat} (s : τ), low + len ≤ n → len < fuel →
      ∃ p s', search compare items itemSize fuel low len s = .ok (p, s') ∧
        ∀ order, Follows compare items itemSize n order → Ordered order n →
          (∀ i < n, order i = 0 → low ≤ i ∧ i < low + len) → Finds items itemSize n order p := by
  intro fuel
  induction fuel with
  | zero => exact fun _ _ hlt => absurd hlt (Nat.not_lt_zero _)
  | succ fuel ih =>
    intro low len s hle hlt
    rw [search]
    by_cases hlen : len > 0
    · have hmid : low + len / 2 < n := by omega
      have hwp : (items + itemSize * (low + len / 2)) % 2 ^ 32 = items + itemSize * (low + len / 2) := by
        have := Nat.mul_le_mul_left itemSize hmid
        rw [Nat.mul_succ] at this
        refine Nat.mod_eq_of_lt ?_
        cases itemSize with
        | zero => simpa using hitm
        | succ size => omega
      obtain ⟨r, s₁, hr⟩ := han s _ hmid
      rw [if_pos hlen]
      dsimp only
      rw [hwp, hr, ok_bind]
      dsimp only
      -- what the answer says about the elements on one side of the middle
      have hsi (order : Nat → Int) (hfw : Follows compare items itemSize n order) := hfw s _ r s₁ hmid hr
      by_cases hzr : r = 0
      · rw [if_pos hzr]
        refine ⟨_, s₁, rfl, fun order hfw _ _ => .inl ⟨_, hmid, ?_, rfl⟩⟩
        have := hsi order hfw
        omega
      · rw [if_neg hzr]
        by_cases hpos : r > 0
        · rw [if_pos hpos]
          obtain ⟨p, s', hsrc, hfnd⟩ := ih s₁ (show low + len / 2 + 1 + (len - len / 2 - 1) ≤ n by omega) (by omega)
          refine ⟨p, s', hsrc, fun order hfw hord hrn => hfnd order hfw hord fun i hi heq => ?_⟩
          have hmdp : 0 < order (low + len / 2) := (hsi order hfw).1.mp hpos
          have hin := hrn i hi heq
          have haf : low + len / 2 < i := by
            by_contra hnot
            rcases Nat.eq_or_lt_of_le (Nat.le_of_not_lt hnot) with rfl | hbe
            · omega
            · have := (hord i _ hbe hmid).1 hmdp
              omega
          omega
        · rw [if_neg hpos]
          obtain ⟨p, s', hsrc, hfnd⟩ := ih s₁ (show low + len / 2 ≤ n by omega) (by omega)
          refine ⟨p, s', hsrc, fun order hfw hord hrn => hfnd order hfw hord fun i hi heq => ?_⟩
          have hmdn : order (low + len / 2) < 0 := (hsi order hfw).2.mp (by omega)
          have hin := hrn i hi heq
          refine ⟨hin.1, ?_⟩
          by_contra hnot
          rcases Nat.eq_or_lt_of_le (Nat.le_of_not_lt hnot) with rfl | haf
          · omega
          · have := (hord _ i haf hi).2 hmdn
            omega
    · rw [if_neg hlen]
      refine ⟨0, s, rfl, fun order _ _ hrn => .inr ⟨rfl, fun i hi heq => ?_⟩⟩
      have := hrn i hi heq
      omega

/-- The search ends, whatever the callback answers, and calls it for elements of the array only: nothing is asked of the callback
    elsewhere. With a callback that follows the order of the array it finds an equal element if there is one. -/
theorem bsearch_finds (compare : τ → Nat → Nat → Except Panic (Int × τ)) (key items itemCount itemSize : Nat) (s : τ)
    (hitems : items < 2 ^ 32) (hfits : items + itemSize * itemCount ≤ 2 ^ 32)
    (hanswers : ∀ s i, i < itemCount → ∃ r s', compare s key (items + itemSize * i) = .ok (r, s')) :
    ∃ p s', bsearch compare key items itemCount itemSize s = .ok (p, s') ∧
      ∀ order, Follows (fun s item => compare s key item) items itemSize itemCount order → Ordered order itemCount →
        Finds items itemSize itemCount order p := by
  obtain ⟨p, s', hsearch, hfinds⟩ := search_finds hitems hfits hanswers (itemCount + 1) s (Nat.le_of_eq (Nat.zero_add _))
    (Nat.lt_succ_self itemCount)
  refine ⟨p, s', hsearch, fun order hfollows hordered => hfinds order hfollows hordered fun i hi _ => ?_⟩
  exact ⟨Nat.zero_le i, by omega⟩

end

/-- Three elements of four bytes at 16, the second of which is equal; a call for anything else stops the emulator. -/
theorem bsearch_finds_second : ∃ p s',
    bsearch (τ := Nat) (fun calls _ item => if item = 16 ∨ item = 20 ∨ item = 24 then .ok (20 - item, calls + 1)
      else .error .callback) 0 16 3 4 0 = .ok (p, s') ∧ Finds 16 4 3 (fun i => 1 - i) p := by
  obtain ⟨p, s', hsearch, hfinds⟩ := bsearch_finds (τ := Nat) (fun calls _ item =>
    if item = 16 ∨ item = 20 ∨ item = 24 then .ok (20 - item, calls + 1) else .error .callback) 0 16 3 4 0 (by decide)
    (by decide) (fun calls i hi => ⟨_, _, if_pos (by omega)⟩)
  refine ⟨p, s', hsearch, hfinds _ ?_ ?_⟩
  · intro calls i r s₁ hi hr
    dsimp only at hr
    rw [if_pos (by omega)] at hr
    cases hr
    dsimp only
    omega
  · intro i j hij hj
    dsimp only
    omega

end TouchHLE.Libc.Bsearch
