import Mathlib.Algebra.Order.Ring.Nat
import Mathlib.Data.List.Induction

/-! Numerals: digits of a base as characters, and the number that a list of digits stands for. -/

namespace TouchHLE.Lib.Numeral

variable (base : Nat) (digits : List UInt8) (c : UInt8)

def digit : Option Nat :=
  if 48 ≤ c ∧ c ≤ 57 then some (c.toNat - 48)
  else if 97 ≤ c ∧ c ≤ 122 then some (c.toNat - 97 + 10)
  else if 65 ≤ c ∧ c ≤ 90 then some (c.toNat - 65 + 10)
  else none

def isDigit : Bool := (digit c).any (· < base)

def value : Nat := digits.foldl (fun n c => n * base + (digit c).getD 0) 0

@[simp] theorem value_nil : value base [] = 0 := rfl

@[simp] theorem value_zero_cons : value base (48 :: digits) = value base digits := by
  have h : 0 * base + (digit 48).getD 0 = 0 := by
    rw [Nat.zero_mul]
    rfl
  rw [value, List.foldl_cons, h]
  rfl

theorem isDigit_zero {base : Nat} (h : 0 < base) : isDigit base 48 = true := by
  have hdt : digit 48 = some 0 := by decide
  simpa [isDigit, hdt] using h

theorem value_append : value base (digits ++ [c]) = value base digits * base + (digit c).getD 0 := by
  rw [value, List.foldl_append]
  rfl

theorem value_lt {base : Nat} {digits : List UInt8} (h : digits.all (isDigit base) = true) :
    value base digits < base ^ digits.length := by
  induction digits using List.reverseRecOn with
  | nil => exact Nat.one_pos
  | append_singleton digits c ih =>
    rw [List.all_append, Bool.and_eq_true] at h
    have hc : (digit c).getD 0 < base := by
      have hdt : isDigit base c = true := by simpa using h.2
      cases hd : digit c with
      | none => simp [isDigit, hd] at hdt
      | some d => simpa [isDigit, hd] using hdt
    rw [value_append, List.length_append, List.length_singleton, Nat.pow_succ]
    calc value base digits * base + (digit c).getD 0
        < value base digits * base + base := Nat.add_lt_add_left hc _
      _ = (value base digits + 1) * base := (Nat.succ_mul _ _).symm
      _ ≤ base ^ digits.length * base := Nat.mul_le_mul_right base (ih h.1)

end TouchHLE.Lib.Numeral
