import TouchHLE.Lib.Numeral

/-! What the C standard says about the conversion of a string to an integer: the subject sequence, and the value that a
    function with some return type gives for it. -/

namespace TouchHLE.Spec
open Lib Numeral

def isSpace (c : UInt8) : Bool := c = 32 ∨ (9 ≤ c ∧ c ≤ 13)

def splitSign : List UInt8 → Option UInt8 × List UInt8
  | [] => (none, [])
  | c :: rest => if c = 43 ∨ c = 45 then (some c, rest) else (none, c :: rest)

/-- `0x` or `0X` is a prefix only before a hexadecimal digit. -/
def hasHexPrefix : List UInt8 → Bool
  | zero :: x :: c :: _ => zero = 48 ∧ (x = 120 ∨ x = 88) ∧ isDigit 16 c = true
  | _ => false

/-- The base of a number without its sign, where 0 asks for the base of a constant in C. -/
def baseFor (base : Nat) (body : List UInt8) : Nat :=
  if base ≠ 0 then base else if hasHexPrefix body then 16 else if body.head? = some 48 then 8 else 10

def prefixFor (base : Nat) (body : List UInt8) : Nat :=
  if (base = 0 ∨ base = 16) ∧ hasHexPrefix body then 2 else 0

structure Numeral where
  sign : Option UInt8
  base : Nat
  digits : List UInt8
  stop : Nat
deriving DecidableEq

def unsigned (text : List UInt8) : Option UInt8 × List UInt8 := splitSign (text.dropWhile isSpace)

def subjectSequence (base : Nat) (text : List UInt8) : Option Numeral :=
  let (sign, body) := unsigned text
  let digits := (body.drop (prefixFor base body)).takeWhile (isDigit (baseFor base body))
  if digits = [] then none
  else some {
    sign, digits
    base := baseFor base body
    stop := (text.takeWhile isSpace).length + sign.toList.length + prefixFor base body + digits.length }

namespace Numeral

def magnitude (n : Numeral) : Nat := Lib.Numeral.value n.base n.digits

def negative (n : Numeral) : Prop := n.sign = some 45

instance (n : Numeral) : Decidable n.negative := inferInstanceAs (Decidable (n.sign = some 45))

end Numeral

structure IntType where
  signed : Bool
  bits : Nat
deriving DecidableEq

namespace IntType

def greatest (t : IntType) : Nat := if t.signed then 2 ^ (t.bits - 1) - 1 else 2 ^ t.bits - 1

def least (t : IntType) : Int := if t.signed then -2 ^ (t.bits - 1) else 0

/-- The value that is returned for a subject sequence. Out of range it is the least or the greatest one of the type. A
    number that is negated in an unsigned type wraps, and is out of range only without its sign. -/
def convert (t : IntType) (n : Numeral) : Int :=
  if t.signed then if n.negative then max t.least (-n.magnitude) else min t.greatest n.magnitude
  else if t.greatest < n.magnitude then t.greatest
  else if n.negative then (-n.magnitude) % 2 ^ t.bits
  else n.magnitude

end IntType

def strTo (t : IntType) (base : Nat) (text : List UInt8) : Int × Nat :=
  match subjectSequence base text with
  | none => (0, 0)
  | some n => (t.convert n, n.stop)

end TouchHLE.Spec
