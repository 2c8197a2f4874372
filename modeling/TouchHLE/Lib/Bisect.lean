import Mathlib.Algebra.Order.Ring.Nat

/-! Searching by bisection. In a list whose elements with some property come first, the partition point is how many of
    them there are. -/

namespace TouchHLE.Lib

variable {α : Type}

/-- The loop of the search. The partition point is at most `base + size`, and after `base` unless that is zero. -/
def bisect (p : α → Bool) (xs : List α) : Nat → Nat → Nat → Nat
  | 0, base, _ => base
  | fuel + 1, base, size =>
    if 1 < size then
      bisect p xs fuel (if xs[base + size / 2]?.any p then base + size / 2 else base) (size - size / 2)
    else base

def partitionPoint (p : α → Bool) (xs : List α) : Nat :=
  if xs = [] then 0
  else
    let base := bisect p xs xs.length 0 xs.length
    base + if xs[base]?.any p then 1 else 0

def Partitioned (p : α → Bool) (xs : List α) (n : Nat) : Prop :=
  n ≤ xs.length ∧ ∀ i, i < xs.length → (xs[i]?.any p = true ↔ i < n)

section
variable {p : α → Bool} {xs : List α} {n : Nat}

structure Between (n base size len : Nat) : Prop where
  pos : 0 < size
  fits : base + size ≤ len
  after : base = 0 ∨ base < n
  upTo : n ≤ base + size

theorem bisect_between (h : Partitioned p xs n) :
    ∀ (fuel : Nat) {base size : Nat}, Between n base size xs.length → size ≤ fuel + 1 →
      Between n (bisect p xs fuel base size) 1 xs.length := by
  intro fuel
  induction fuel with
  | zero =>
    intro base size hb hfl
    have hone : size = 1 := Nat.le_antisymm hfl hb.pos
    rw [hone] at hb
    exact hb
  | succ fuel ih =>
    intro base size hb hfl
    obtain ⟨hpos, hft, haf, hupt⟩ := hb
    rw [bisect]
    by_cases hsz : 1 < size
    · rw [if_pos hsz]
      have hmid := h.2 (base + size / 2) (by omega)
      refine ih ?_ (by omega)
      by_cases hp : xs[base + size / 2]?.any p = true
      · have hlt := hmid.mp hp
        rw [if_pos hp]
        exact ⟨by omega, by omega, .inr hlt, by omega⟩
      · have hge : n ≤ base + size / 2 := Nat.le_of_not_lt fun hlt => hp (hmid.mpr hlt)
        rw [if_neg hp]
        exact ⟨by omega, by omega, haf, by omega⟩
    · have hone : size = 1 := by omega
      rw [if_neg hsz]
      rw [hone] at hft hupt
      exact ⟨Nat.one_pos, hft, haf, hupt⟩

theorem partitionPoint_eq (h : Partitioned p xs n) : partitionPoint p xs = n := by
  unfold partitionPoint
  by_cases hnil : xs = []
  · subst hnil
    exact (Nat.le_zero.mp h.1).symm
  · have hlen : 0 < xs.length := List.length_pos_iff.mpr hnil
    rw [if_neg hnil]
    obtain ⟨-, hft, haf, hupt⟩ := bisect_between h xs.length
      ⟨hlen, Nat.le_of_eq (Nat.zero_add _), .inl rfl, by have := h.1; omega⟩ (Nat.le_succ _)
    have hls := h.2 (bisect p xs xs.length 0 xs.length) (by omega)
    dsimp only
    by_cases hp : xs[bisect p xs xs.length 0 xs.length]?.any p = true
    · have hlt := hls.mp hp
      rw [if_pos hp]
      omega
    · have hge := Nat.le_of_not_lt fun hlt => hp (hls.mpr hlt)
      rw [if_neg hp]
      omega

end

section
variable {f : Nat → Int} {d : Int} {y n : Nat}

/-- A value between the first and the last one is between two that follow each other. -/
theorem exists_between (hlow : f 0 ≤ d) (hhg : d < f n) : ∃ y < n, f y ≤ d ∧ d < f (y + 1) := by
  induction n with
  | zero => omega
  | succ n ih =>
    by_cases hd : d < f n
    · obtain ⟨y, hy, hbtw⟩ := ih hd
      exact ⟨y, Nat.lt_succ_of_lt hy, hbtw⟩
    · exact ⟨n, Nat.lt_succ_self n, by omega, hhg⟩

theorem partitionPoint_range (hgr : ∀ i j, i < j → f i < f j) (hy : y < n) (hlow : f y ≤ d) (hhg : d < f (y + 1)) :
    partitionPoint (fun x => decide (x ≤ d)) ((List.range n).map f) = y + 1 := by
  have hmon : ∀ i j, i ≤ j → f i ≤ f j := by
    intro i j hij
    rcases Nat.eq_or_lt_of_le hij with rfl | hlt
    · exact Int.le_refl _
    · exact Int.le_of_lt (hgr i j hlt)
  refine partitionPoint_eq ⟨by simpa using Nat.succ_le_of_lt hy, ?_⟩
  intro i hi
  rw [List.length_map, List.length_range] at hi
  have hget : ((List.range n).map f)[i]? = some (f i) := by simp [hi]
  rw [hget, Option.any_some, decide_eq_true_eq]
  constructor
  · intro hle
    by_contra hge
    have := hmon (y + 1) i (Nat.le_of_not_lt hge)
    omega
  · intro hlt
    have := hmon i y (Nat.le_of_lt_succ hlt)
    omega

end

end TouchHLE.Lib
