import TouchHLE.Lib.Outcome
import TouchHLE.Lib.Utf16

/-! Strings: `touchHLE/src/frameworks/foundation/ns_string.rs`. A string is kept as text (`Utf8`) or as UTF-16 code units
    that need not be the encoding of a text; methods that count code units convert the host object in place. -/

namespace TouchHLE.Foundation
open Lib

/-- `Cow<'static, str>` is a sequence of characters. -/
inductive StringHostObject where
  | utf8 (text : List Char)
  | utf16 (units : List UInt16)
deriving DecidableEq

namespace StringHostObject

def empty : StringHostObject := .utf8 []

def toUtf8 : StringHostObject → Option (List Char)
  | .utf8 text => some text
  | .utf16 units => Utf16.decode units

def iterCodeUnits : StringHostObject → List UInt16
  | .utf8 text => Utf16.encode text
  | .utf16 units => units

def convertToUtf16Inplace : StringHostObject → StringHostObject
  | .utf8 text => .utf16 (Utf16.encode text)
  | .utf16 units => .utf16 units

end StringHostObject

def nextIdx (idx : Nat) : Nat := (idx + 1) % 2 ^ 32

/-- `for_each_code_unit`, where `f` also updates what its closure has captured -/
def forEachCodeUnit {σ : Type} (string : StringHostObject) (f : Nat → UInt16 → σ → σ) (captured : σ) : σ :=
  (string.iterCodeUnits.foldl (fun p c => (nextIdx p.1, f p.1 c p.2)) (0, captured)).2

structure NSRange where
  location : Nat
  length : Nat
deriving DecidableEq

inductive StringPanic where
  | nil
  | noHostObject
  | unrecognizedSelector
  | tryFromInt
  | outOfRange
  | fromUtf16
deriving DecidableEq

structure StringObject where
  hostObject : StringHostObject
  mutable : Bool
deriving DecidableEq

structure Strings where
  objects : List StringObject

namespace Strings

variable (s : Strings) (this : Nat)

def borrow : Except StringPanic StringObject :=
  match s.objects[this]? with
  | none => .error .noHostObject
  | some object => .ok object

def borrowMutable : Except StringPanic StringObject := do
  let object ← s.borrow this
  if object.mutable then .ok object else .error .unrecognizedSelector

def setHostObject (hostObject : StringHostObject) : Strings :=
  ⟨s.objects.modify this fun object => { object with hostObject := hostObject }⟩

def alloc (hostObject : StringHostObject) (mutable : Bool) : Nat × Strings :=
  (s.objects.length, ⟨s.objects ++ [⟨hostObject, mutable⟩]⟩)

def fromU16Vec (units : List UInt16) : Nat × Strings := s.alloc (.utf16 units) false

/-- The pool shares the objects of equal texts. They cannot be changed, so every use has its own here. -/
def getStaticStr (text : List Char) : Nat × Strings := s.alloc (.utf8 text) false

def toRustString (string : Nat) : Except StringPanic (List Char) := do
  let object ← s.borrow string
  match object.hostObject.toUtf8 with
  | none => .error .fromUtf16
  | some text => .ok text

def notNil : Option Nat → Except StringPanic Nat
  | none => .error .nil
  | some string => .ok string

def convertInplace : Except StringPanic (List UInt16 × Strings) := do
  let object ← s.borrow this
  .ok (object.hostObject.iterCodeUnits, s.setHostObject this object.hostObject.convertToUtf16Inplace)

def lenAsNSUInteger (units : List UInt16) : Except StringPanic Nat :=
  if units.length < 2 ^ 32 then .ok units.length else .error .tryFromInt

def length : Except StringPanic (Nat × Strings) := do
  let converted ← s.convertInplace this
  let len ← lenAsNSUInteger converted.1
  .ok (len, converted.2)

def unitAt (units : List UInt16) (index : Nat) : Except StringPanic UInt16 :=
  match units[index]? with
  | none => .error .outOfRange
  | some unit => .ok unit

def characterAtIndex (this index : Nat) : Except StringPanic (UInt16 × Strings) := do
  let converted ← s.convertInplace this
  let unit ← unitAt converted.1 index
  .ok (unit, converted.2)

def substringToIndex (this stop : Nat) : Except StringPanic (Nat × Strings) := do
  let object ← s.borrow this
  let res := forEachCodeUnit object.hostObject (fun idx c res => if idx < stop then res ++ [c] else res) []
  .ok (s.alloc (.utf16 res) false)

def substringFromIndex (this start : Nat) : Except StringPanic (Nat × Strings) := do
  let object ← s.borrow this
  let res := forEachCodeUnit object.hostObject (fun idx c res => if idx ≥ start then res ++ [c] else res) []
  .ok (s.alloc (.utf16 res) false)

def slice (units : List UInt16) (start stop : Nat) : Except StringPanic (List UInt16) :=
  if start ≤ stop ∧ stop ≤ units.length then .ok ((units.take stop).drop start) else .error .outOfRange

def substringWithRange (range : NSRange) : Except StringPanic (Nat × Strings) := do
  let converted ← s.convertInplace this
  let units ← slice converted.1 range.location ((range.location + range.length) % 2 ^ 32)
  .ok (converted.2.fromU16Vec units)

def stringByAppendingString (other : Option Nat) : Except StringPanic (Nat × Strings) := do
  let other ← notNil other
  let thisLen ← s.length this
  let otherLen ← thisLen.2.length other
  let thisObject ← otherLen.2.borrow this
  let otherObject ← otherLen.2.borrow other
  let new := forEachCodeUnit thisObject.hostObject (fun _ c new => new ++ [c]) []
  let new := forEachCodeUnit otherObject.hostObject (fun _ c new => new ++ [c]) new
  .ok (otherLen.2.alloc (.utf16 new) false)

def setString (aString : Option Nat) : Except StringPanic Strings := do
  let _ ← s.borrowMutable this
  let aString ← notNil aString
  let text ← s.toRustString aString
  .ok (s.setHostObject this (.utf8 text))

def appendString (aString : Option Nat) : Except StringPanic Strings := do
  let _ ← s.borrowMutable this
  let aString ← notNil aString
  let new ← s.stringByAppendingString this (some aString)
  new.2.setString this (some new.1)

def leftOfRange (range : NSRange) : Except StringPanic (Nat × Strings) :=
  if range.location = 0 then .ok (s.getStaticStr []) else s.substringWithRange this ⟨0, range.location⟩

def rightOfRange (this idxAfterRemoval lengthStr : Nat) : Except StringPanic (Nat × Strings) :=
  if idxAfterRemoval = lengthStr then .ok (s.getStaticStr [])
  else s.substringWithRange this ⟨idxAfterRemoval, (lengthStr + 2 ^ 32 - idxAfterRemoval) % 2 ^ 32⟩

def deleteCharactersInRange (range : NSRange) : Except StringPanic Strings := do
  let _ ← s.borrowMutable this
  let left ← s.leftOfRange this range
  let lengthStr ← left.2.length this
  let right ← lengthStr.2.rightOfRange this ((range.location + range.length) % 2 ^ 32) lengthStr.1
  let res ← right.2.stringByAppendingString left.1 (some right.1)
  res.2.setString this (some res.1)

def mutableCopy (s : Strings) (this : Nat) : Except StringPanic (Nat × Strings) := do
  let strMut := s.alloc .empty true
  let s ← strMut.2.setString strMut.1 (some this)
  .ok (strMut.1, s)

end Strings

inductive StringMessage (ι : Type) where
  | length
  | characterAtIndex (index : Nat)
  | substringToIndex (stop : Nat)
  | substringFromIndex (start : Nat)
  | substringWithRange (range : NSRange)
  | stringByAppendingString (other : ι)
  | appendString (aString : ι)
  | deleteCharactersInRange (range : NSRange)
  | setString (aString : ι)
  | mutableCopy

namespace StringMessage
variable {ι κ : Type}

def map (f : ι → κ) : StringMessage ι → StringMessage κ
  | .length => .length
  | .characterAtIndex index => .characterAtIndex index
  | .substringToIndex stop => .substringToIndex stop
  | .substringFromIndex start => .substringFromIndex start
  | .substringWithRange range => .substringWithRange range
  | .stringByAppendingString other => .stringByAppendingString (f other)
  | .appendString aString => .appendString (f aString)
  | .deleteCharactersInRange range => .deleteCharactersInRange range
  | .setString aString => .setString (f aString)
  | .mutableCopy => .mutableCopy

end StringMessage

inductive StringReply where
  | nothing
  | number (n : Nat)
  | unit (c : UInt16)
  | object (string : Nat)
deriving DecidableEq

namespace Strings

def withObject (r : Except StringPanic (Nat × Strings)) : Except StringPanic (StringReply × Strings) := do
  let r ← r
  .ok (.object r.1, r.2)

def withNothing (r : Except StringPanic Strings) : Except StringPanic (StringReply × Strings) := do
  let s ← r
  .ok (.nothing, s)

def send (s : Strings) (this : Nat) : StringMessage (Option Nat) → Except StringPanic (StringReply × Strings)
  | .length => do
    let r ← s.length this
    .ok (.number r.1, r.2)
  | .characterAtIndex index => do
    let r ← s.characterAtIndex this index
    .ok (.unit r.1, r.2)
  | .substringToIndex stop => withObject (s.substringToIndex this stop)
  | .substringFromIndex start => withObject (s.substringFromIndex this start)
  | .substringWithRange range => withObject (s.substringWithRange this range)
  | .stringByAppendingString other => withObject (s.stringByAppendingString this other)
  | .appendString aString => withNothing (s.appendString this aString)
  | .deleteCharactersInRange range => withNothing (s.deleteCharactersInRange this range)
  | .setString aString => withNothing (s.setString this aString)
  | .mutableCopy => withObject (s.mutableCopy this)

end Strings

end TouchHLE.Foundation
