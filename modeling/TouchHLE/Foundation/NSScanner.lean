import Mathlib.Data.List.TakeWhile
import TouchHLE.Foundation.NSString

/-! Integers in strings: `intValue` of `touchHLE/src/frameworks/foundation/ns_string.rs` and `scanInt:` of `ns_scanner.rs`.
    Both take all digits and signs for a number, which it need not be. -/

namespace TouchHLE.Foundation
open Lib List

structure NSScanner where
  toBeSkipped : UInt16 → Bool
  string : List UInt16
  pos : Nat

/-- `c.is_ascii_digit() || c == '+' || c == '-'` -/
def isIntChar (c : Char) : Bool := c.isDigit || c == '+' || c == '-'

def splitSign : List Char → Bool × List Char
  | [] => (false, [])
  | c :: rest => if c = '-' then (true, rest) else if c = '+' then (false, rest) else (false, c :: rest)

def decimal (negative : Bool) (digits : List Char) : Int :=
  let n : Nat := digits.foldl (fun n c => 10 * n + (c.toNat - 48)) 0
  if negative then -n else n

def FitsI32 (n : Int) : Prop := -2 ^ 31 ≤ n ∧ n < 2 ^ 31

instance (n : Int) : Decidable (FitsI32 n) := inferInstanceAs (Decidable (_ ∧ _))

/-- `src.parse::<i32>()` -/
def parseI32 (src : List Char) : Option Int :=
  let (negative, digits) := splitSign src
  if digits ≠ [] ∧ digits.all Char.isDigit ∧ FitsI32 (decimal negative digits) then some (decimal negative digits) else none

/-- `trim_start` drops what Unicode has for white space. -/
def intValue (isWhitespace : Char → Bool) (this : StringHostObject) : Except StringPanic Int :=
  match this.toUtf8 with
  | none => .error .fromUtf16
  | some st => .ok ((parseI32 ((st.dropWhile isWhitespace).takeWhile isIntChar)).getD 0)

namespace NSScanner

def skipCharacters (s : NSScanner) : NSScanner :=
  { s with pos := s.pos + ((s.string.drop s.pos).takeWhile s.toBeSkipped).length }

/-- The integer that is written if there is one. -/
def scanInt (s : NSScanner) : Except StringPanic (Option Int × NSScanner) :=
  let s := s.skipCharacters
  match Utf16.decode (s.string.drop s.pos) with
  | none => .error .fromUtf16
  | some st =>
    let run := st.takeWhile isIntChar
    if run = [] then .ok (none, s)
    else .ok (some ((parseI32 run).getD 0), { s with pos := s.pos + run.length })

end NSScanner

/-- The digits at the start of a text, after its sign. -/
def digits (text : List Char) : List Char := (splitSign text).2.takeWhile Char.isDigit

def number (text : List Char) : Int := decimal (splitSign text).1 (digits text)

def saturate (n : Int) : Int := max (-2 ^ 31) (min n (2 ^ 31 - 1))

/-- What the scanner does if it reads the numeral at the start of a text. -/
def scanned (s : NSScanner) (text : List Char) : Option Int × NSScanner :=
  if digits text = [] then (none, s)
  else (some (saturate (number text)), { s with
    pos := s.skipCharacters.pos + (text.length - (splitSign text).2.length) + (digits text).length })

/-- Both methods read the numeral, after white space and after what is to be skipped. -/
def ReadsInt (isWhitespace : Char → Bool) (this : StringHostObject) (s : NSScanner) : Prop :=
  (∃ text, this.toUtf8 = some text ∧ intValue isWhitespace this = .ok (saturate (number (text.dropWhile isWhitespace)))) ∧
    ∃ text, Utf16.decode (s.string.drop s.skipCharacters.pos) = some text ∧ s.scanInt = .ok (scanned s text)

/-- No sign comes after the digits, and the number is in range. -/
def Plain (text : List Char) : Prop := ((splitSign text).2.takeWhile isIntChar).all Char.isDigit ∧ FitsI32 (number text)

instance (text : List Char) : Decidable (Plain text) := inferInstanceAs (Decidable (_ ∧ _))

section
variable (text : List Char)

theorem digits_eq : ((splitSign text).2.takeWhile isIntChar).takeWhile Char.isDigit = digits text := by
  rw [takeWhile_takeWhile, digits]
  congr 1
  funext c
  cases h : c.isDigit <;> simp [isIntChar, h]

theorem splitSign_run : splitSign (text.takeWhile isIntChar) = ((splitSign text).1, (splitSign text).2.takeWhile isIntChar) ∧
    (text.takeWhile isIntChar).length = text.length - (splitSign text).2.length + ((splitSign text).2.takeWhile isIntChar).length := by
  cases text with
  | nil => exact ⟨rfl, rfl⟩
  | cons c rest =>
    by_cases hm : c = '-'
    · subst hm
      simp [splitSign, isIntChar, Nat.add_comm]
    by_cases hp : c = '+'
    · subst hp
      simp [splitSign, isIntChar, Nat.add_comm]
    · simp only [splitSign, if_neg hm, if_neg hp, takeWhile_cons]
      cases isIntChar c <;> simp [hm, hp]

theorem all_iff : ((splitSign text).2.takeWhile isIntChar).all Char.isDigit = true ↔
    (splitSign text).2.takeWhile isIntChar = digits text := by
  rw [all_eq_true, ← takeWhile_eq_self_iff, digits_eq, eq_comm]

theorem number_of_nil (h : digits text = []) : number text = 0 := by
  rw [number, h]
  cases (splitSign text).1 <;> rfl

theorem parse_run : (parseI32 (text.takeWhile isIntChar)).getD 0 = if Plain text then number text else 0 := by
  unfold parseI32
  rw [(splitSign_run text).1]
  dsimp only
  by_cases hp : Plain text
  · rw [if_pos hp]
    have hall := (all_iff text).mp hp.1
    by_cases hd : digits text = []
    · rw [number_of_nil text hd, if_neg fun h => h.1 (hall ▸ hd)]
      rfl
    · rw [if_pos ⟨hall ▸ hd, hp.1, hall ▸ hp.2⟩, hall]
      rfl
  · rw [if_neg hp, if_neg]
    · rfl
    · rintro ⟨-, hall, hf⟩
      rw [(all_iff text).mp hall] at hf
      exact hp ⟨hall, hf⟩

theorem parsed_iff : (parseI32 (text.takeWhile isIntChar)).getD 0 = saturate (number text) ↔ number text = 0 ∨ Plain text := by
  rw [parse_run]
  unfold saturate
  split
  · rename_i hp
    have hf := hp.2
    unfold FitsI32 at hf
    exact iff_of_true (by omega) (.inr hp)
  · rename_i hp
    rw [or_iff_left hp]
    omega

theorem plain_iff (h : number text = 0 ∨ Plain text) :
    Plain text ↔ (text.takeWhile isIntChar).length = text.length - (splitSign text).2.length + (digits text).length := by
  rw [(splitSign_run text).2, Nat.add_left_cancel_iff]
  refine ⟨fun hp => congrArg length ((all_iff text).mp hp.1), fun hlen => ?_⟩
  rcases h with h0 | hp
  · refine ⟨(all_iff text).mpr ?_, by rw [h0]; decide⟩
    rw [← digits_eq] at hlen ⊢
    refine (IsPrefix.eq_of_length ?_ hlen.symm).symm
    exact takeWhile_prefix _
  · exact hp

theorem digits_of_run (h : text.takeWhile isIntChar = []) : digits text = [] := by
  have hrun : _ = (splitSign text).2.takeWhile isIntChar := congrArg Prod.snd (splitSign_run text).1
  rw [h] at hrun
  rw [← digits_eq, ← hrun]
  rfl

end

theorem scanInt_eq_iff (s : NSScanner) {text : List Char} (h : Utf16.decode (s.string.drop s.skipCharacters.pos) = some text) :
    s.scanInt = .ok (scanned s text) ↔
      text.takeWhile isIntChar = [] ∧ s.skipCharacters = s ∨ digits text ≠ [] ∧ Plain text := by
  unfold NSScanner.scanInt scanned
  dsimp only
  rw [show s.skipCharacters.string = s.string from rfl, h]
  dsimp only
  by_cases hr : text.takeWhile isIntChar = []
  · simp [hr, digits_of_run text hr]
  by_cases hd : digits text = []
  · simp [hr, hd]
  · simp only [hr, hd, if_false, Except.ok.injEq, Prod.mk.injEq, Option.some.injEq, parsed_iff, NSScanner.mk.injEq,
      Nat.add_assoc, Nat.add_left_cancel_iff, false_and, false_or, ne_eq, not_false_eq_true, true_and]
    exact ⟨fun hv => (plain_iff text hv.1).mpr hv.2.2, fun hp => ⟨.inr hp, rfl, (plain_iff text (.inr hp)).mp hp⟩⟩

theorem intValue_eq_iff {isWhitespace : Char → Bool} {this : StringHostObject} {text : List Char} (h : this.toUtf8 = some text) :
    intValue isWhitespace this = .ok (saturate (number (text.dropWhile isWhitespace))) ↔
      number (text.dropWhile isWhitespace) = 0 ∨ Plain (text.dropWhile isWhitespace) := by
  rw [← parsed_iff, intValue, h]
  exact ⟨Except.ok.inj, congrArg Except.ok⟩

/-- The methods are right if the run of digits and signs is a number in range, or if there is none. -/
theorem readsInt_iff (isWhitespace : Char → Bool) (this : StringHostObject) (s : NSScanner) : ReadsInt isWhitespace this s ↔
    (∃ text, this.toUtf8 = some text ∧ (number (text.dropWhile isWhitespace) = 0 ∨ Plain (text.dropWhile isWhitespace))) ∧
      ∃ text, Utf16.decode (s.string.drop s.skipCharacters.pos) = some text ∧
        (text.takeWhile isIntChar = [] ∧ s.skipCharacters = s ∨ digits text ≠ [] ∧ Plain text) :=
  and_congr (exists_congr fun _ => and_congr_right intValue_eq_iff) (exists_congr fun _ => and_congr_right (scanInt_eq_iff s))

/-- `5-3` is taken for one number. -/
theorem readsInt_fails : ¬ReadsInt (· == ' ') (.utf8 ['5', '-', '3']) ⟨(· == 32), [53, 45, 51], 0⟩ := by
  rintro ⟨⟨text, ⟨⟩, h⟩, -⟩
  exact absurd h (by decide)

end TouchHLE.Foundation
