import TouchHLE.Foundation.NSString

/-! What the messages about code units are for: operations on sequences of code units, some of which change the receiver. The
    specification knows nothing of the two representations. -/

namespace TouchHLE.Spec.CodeUnits
open Foundation

inductive Given where
  | nothing
  | number (n : Nat)
  | unit (c : Option UInt16)
  | sequence (units : List UInt16) (mutable : Bool)

/-- An operation on the sequence of the receiver: what it gives and what the receiver is then. -/
def perform (units : List UInt16) : StringMessage (List UInt16) → Given × List UInt16
  | .length => (.number units.length, units)
  | .characterAtIndex index => (.unit units[index]?, units)
  | .substringToIndex stop => (.sequence (units.take stop) false, units)
  | .substringFromIndex start => (.sequence (units.drop start) false, units)
  | .substringWithRange range => (.sequence ((units.drop range.location).take range.length) false, units)
  | .stringByAppendingString other => (.sequence (units ++ other) false, units)
  | .appendString aString => (.nothing, units ++ aString)
  | .deleteCharactersInRange range =>
    (.nothing, units.take range.location ++ units.drop (range.location + range.length))
  | .setString aString => (.nothing, aString)
  | .mutableCopy => (.sequence units true, units)

/-- Indexes and ranges are of type `NSUInteger` and lie within the receiver. -/
def InRange (units : List UInt16) : StringMessage (List UInt16) → Prop
  | .characterAtIndex index => index < 2 ^ 32 ∧ index < units.length
  | .substringToIndex stop => stop < 2 ^ 32 ∧ stop ≤ units.length
  | .substringFromIndex start => start < 2 ^ 32 ∧ start ≤ units.length
  | .substringWithRange range | .deleteCharactersInRange range =>
    range.location < 2 ^ 32 ∧ range.length < 2 ^ 32 ∧ range.location + range.length ≤ units.length
  | _ => True

def Mutates {ι : Type} : StringMessage ι → Prop
  | .appendString _ | .deleteCharactersInRange _ | .setString _ => True
  | _ => False

def Operand {ι : Type} (P : ι → Prop) : StringMessage ι → Prop
  | .stringByAppendingString string | .appendString string | .setString string => P string
  | _ => True

/-- Lengths that the message counts are of type `NSUInteger`, and what it stores in a string is the encoding of a text. -/
def Representable (units : List UInt16) : StringMessage (List UInt16) → Prop
  | .length => units.length < 2 ^ 32
  | .characterAtIndex _ => True
  | .substringToIndex stop => stop = 0 ∨ units.length ≤ 2 ^ 32
  | .substringFromIndex start => start = 0 ∨ units.length ≤ 2 ^ 32
  | .substringWithRange range => range.location + range.length < 2 ^ 32
  | .stringByAppendingString other => units.length < 2 ^ 32 ∧ other.length < 2 ^ 32
  | .appendString aString =>
    units.length < 2 ^ 32 ∧ aString.length < 2 ^ 32 ∧ Lib.Utf16.WellFormed (units ++ aString)
  | .deleteCharactersInRange range =>
    units.length < 2 ^ 32 ∧ Lib.Utf16.WellFormed (units.take range.location ++ units.drop (range.location + range.length))
  | .setString aString => Lib.Utf16.WellFormed aString
  | .mutableCopy => Lib.Utf16.WellFormed units

abbrev View := List (List UInt16 × Bool)

/-- A reply is what an operation gives; a new sequence is that of a new string. -/
def Replies (before after : View) : StringReply → Given → Prop
  | .nothing, .nothing => True
  | .number n, .number m => n = m
  | .unit c, .unit d => some c = d
  | .object string, .sequence units mutable => before.length ≤ string ∧ after[string]? = some (units, mutable)
  | _, _ => False

/-- A message with a receiver `this` that has been answered as the operation says. No other string has changed. -/
structure Answered (before : View) (this : Nat) (units : List UInt16) (message : StringMessage (List UInt16))
    (reply : StringReply) (after : View) : Prop where
  reply : Replies before after reply (perform units message).1
  receiver : ∀ mutable, before[this]? = some (units, mutable) → after[this]? = some ((perform units message).2, mutable)
  others : ∀ i, i < before.length → i ≠ this → after[i]? = before[i]?

end TouchHLE.Spec.CodeUnits
