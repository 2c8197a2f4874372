import TouchHLE.Theorems.Mem.BestFit

/-! Rounding to pages. The source rounds addresses down with a mask and sizes up with
    `next_multiple_of`, which wraps to zero for the sizes of the last page. -/

namespace TouchHLE.Mem
variable {n : Nat}

def pageDown (a : Nat) : Nat := a / pageSize * pageSize

def pageUp (n : Nat) : Nat := (n + (pageSize - 1)) / pageSize * pageSize

theorem pageSize_dvd_pageDown (a : Nat) : pageSize ∣ pageDown a := Nat.dvd_mul_left _ _

theorem pageSize_dvd_pageUp (n : Nat) : pageSize ∣ pageUp n := Nat.dvd_mul_left _ _

theorem pageDown_le (a : Nat) : pageDown a ≤ a := Nat.div_mul_le_self _ _

theorem pageDown_of_dvd {a : Nat} (h : pageSize ∣ a) : pageDown a = a := Nat.div_mul_cancel h

theorem le_pageUp (n : Nat) : n ≤ pageUp n := by
  simp only [pageUp, pageSize]
  omega

theorem pageUp_of_dvd (h : pageSize ∣ n) : pageUp n = n := by
  obtain ⟨k, rfl⟩ := h
  simp only [pageUp, pageSize]
  omega

theorem pageSize_le_pageUp (h : 0 < n) : pageSize ≤ pageUp n := by
  simp only [pageUp, pageSize]
  omega

/-- The mask of the source clears the offset in the page. -/
theorem truncPage_eq {a : Nat} (h : a < 2 ^ 32) : truncPage a = pageDown a := by
  have hmsk : a &&& (2 ^ 32 - pageSize) = (a >>> 12) <<< 12 := by
    apply Nat.eq_of_testBit_eq
    intro i
    have hbit : (2 ^ 32 - pageSize).testBit i = (decide (12 ≤ i) && decide (i < 32)) := by
      have hsh : 2 ^ 32 - pageSize = (2 ^ 20 - 1) <<< 12 := by decide
      rw [hsh, Nat.testBit_shiftLeft, Nat.testBit_two_pow_sub_one]
      by_cases hi : 12 ≤ i
      · simp only [hi, decide_true, Bool.true_and, decide_eq_decide]
        omega
      · simp [hi]
    rw [Nat.testBit_and, hbit, Nat.testBit_shiftLeft, Nat.testBit_shiftRight]
    by_cases hi : 12 ≤ i
    · by_cases h32 : i < 32
      · simp [hi, h32, Nat.add_sub_cancel' hi]
      · have hzr : a.testBit i = false :=
          Nat.testBit_lt_two_pow (Nat.lt_of_lt_of_le h (Nat.pow_le_pow_right (by decide) (by omega)))
        simp [hi, h32, Nat.add_sub_cancel' hi, hzr]
    · simp [hi]
  rw [truncPage, hmsk, Nat.shiftLeft_eq, Nat.shiftRight_eq_div_pow]
  rfl

/-- Rounding up wraps exactly when the pages do not fit in 32 bits. -/
theorem nextMultipleOf_pageSize (h : n < 2 ^ 32) : nextMultipleOf n pageSize = wrap (pageUp n) := by
  unfold nextMultipleOf
  by_cases h0 : n % pageSize = 0
  · rw [if_pos h0]
    simp only [pageUp, pageSize, wrap] at *
    omega
  · rw [if_neg h0]
    simp only [pageUp, pageSize, wrap] at *
    omega

theorem nextMultipleOf_of_fits (h : pageUp n < 2 ^ 32) : nextMultipleOf n pageSize = pageUp n := by
  rw [nextMultipleOf_pageSize (Nat.lt_of_le_of_lt (le_pageUp n) h), wrap_of_lt h]

theorem pageUp_lt_iff : pageUp n < 2 ^ 32 ↔ n ≤ 2 ^ 32 - pageSize := by
  simp only [pageUp, pageSize]
  omega

theorem nextMultipleOf_of_wraps (h : n < 2 ^ 32) (hbig : 2 ^ 32 - pageSize < n) : nextMultipleOf n pageSize = 0 := by
  rw [nextMultipleOf_pageSize h]
  simp only [pageUp, pageSize, wrap] at *
  omega

end TouchHLE.Mem
