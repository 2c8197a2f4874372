import TouchHLE.Lib.Buckets
import TouchHLE.Lib.Outcome
import TouchHLE.Lib.Run

/-! Dictionaries: `touchHLE/src/frameworks/foundation/ns_dictionary.rs`. A table maps hash values to lists of pairs. There
    are two kinds of host objects, for `NSDictionary` and for `CFDictionary` with its callbacks. -/

namespace TouchHLE.Foundation
open Lib Function

structure Id where
  bits : Nat
  pos : 0 < bits
  lt : bits < 2 ^ 32

@[ext] theorem Id.ext {a b : Id} (h : a.bits = b.bits) : a = b := by
  cases a
  cases b
  cases h
  rfl

instance : DecidableEq Id := fun _ _ => decidable_of_iff _ Id.ext_iff.symm

abbrev Refs := Id → Int

def Refs.add (refs : Refs) (object : Option Id) (n : Int) : Refs :=
  match object with
  | none => refs
  | some object => update refs object (refs object + n)

def retain (refs : Refs) (object : Option Id) : Refs := refs.add object 1

def release (refs : Refs) (object : Option Id) : Refs := refs.add object (-1)

inductive DictionaryPanic where
  | noCollisions
  | noHostObject
deriving DecidableEq

def increment (count : Nat) : Nat := (count + 1) % 2 ^ 32

def decrement (count : Nat) : Nat := (count + 2 ^ 32 - 1) % 2 ^ 32

structure DictionaryHostObject where
  map : Buckets Nat Id (Option Id)
  count : Nat

namespace DictionaryHostObject

def empty : DictionaryHostObject := ⟨.empty, 0⟩

/-- `candidate_key == key || msg![env; candidate_key isEqual:key]`, where `methods` has `hash` and `isEqual:` -/
def isKey (methods : Hashing Nat Id) (key : Id) (pair : Id × Option Id) : Bool := pair.1 == key || methods.same pair.1 key

def lookup (methods : Hashing Nat Id) (self : DictionaryHostObject) (key : Id) : Option Id :=
  match self.map.lookup (methods.hash key) with
  | none => none
  | some collisions =>
    match collisions.find? (isKey methods key) with
    | none => none
    | some pair => pair.2

/-- `copied` is what `copy` returns for the key, if that is called. -/
def insert (methods : Hashing Nat Id) (self : DictionaryHostObject) (refs : Refs) (key copied : Id) (value : Option Id)
    (copyKey : Bool) : DictionaryHostObject × Refs :=
  let key := if copyKey then copied else key
  -- One reference, by `copy` or by `retain`.
  let refs := retain refs key
  let hash := methods.hash key
  let refs := retain refs value
  match self.map.lookup hash with
  | none => (⟨self.map.insert hash [(key, value)], increment self.count⟩, refs)
  | some collisions =>
    match collisions.find? (isKey methods key) with
    | some (candidateKey, existingValue) =>
      (⟨self.map.insert hash (collisions.set (collisions.findIdx (isKey methods key)) (candidateKey, value)), self.count⟩,
        release refs existingValue)
    | none => (⟨self.map.insert hash (collisions ++ [(key, value)]), increment self.count⟩, refs)

def remove (methods : Hashing Nat Id) (self : DictionaryHostObject) (refs : Refs) (key : Id) : DictionaryHostObject × Refs :=
  let hash := methods.hash key
  match self.map.lookup hash with
  | none => (self, refs)
  | some collisions =>
    match collisions.find? (isKey methods key) with
    | none => (self, refs)
    | some (existingKey, value) =>
      (⟨self.map.insert hash (collisions.eraseIdx (collisions.findIdx (isKey methods key))), decrement self.count⟩,
        release (release refs existingKey) value)

def releaseAll (self : DictionaryHostObject) (refs : Refs) : Refs :=
  (Buckets.pairs self.map).foldl (fun refs pair => release (release refs pair.1) pair.2) refs

inductive Call where
  | insert (key copied : Id) (value : Option Id) (copyKey : Bool)
  | remove (key : Id)

def call (methods : Hashing Nat Id) (s : DictionaryHostObject × Refs) :
    Call → Except DictionaryPanic (Unit × DictionaryHostObject × Refs)
  | .insert key copied value copyKey => .ok ((), s.1.insert methods s.2 key copied value copyKey)
  | .remove key => .ok ((), s.1.remove methods s.2 key)

end DictionaryHostObject

/-- The callbacks of a `CFDictionary`; `none` and `false` are null pointers. What a `retain` callback returns is given with
    the operation that calls it. -/
structure CFCallBacks where
  hash : Option (Id → Nat)
  equal : Option (Id → Id → Bool)
  retainKey : Bool
  retainValue : Bool

def CFCallBacks.hashing (callbacks : CFCallBacks) : Hashing Nat Id where
  hash := callbacks.hash.getD (·.bits)
  same := callbacks.equal.getD (· == ·)

namespace CFDictionaryHostObject

def lookup (callbacks : CFCallBacks) (self : DictionaryHostObject) (key : Id) : Option Id :=
  match self.map.lookup (callbacks.hashing.hash key) with
  | none => none
  | some collisions =>
    match collisions.find? (fun pair => callbacks.hashing.same pair.1 key) with
    | none => none
    | some pair => pair.2

def remove (callbacks : CFCallBacks) (self : DictionaryHostObject) (key : Id) : Bool × DictionaryHostObject :=
  let hash := callbacks.hashing.hash key
  match self.map.lookup hash with
  | none => (false, self)
  | some collisions =>
    match collisions.find? (fun pair => callbacks.hashing.same pair.1 key) with
    | none => (false, self)
    | some _ =>
      let pos := collisions.findIdx fun pair => callbacks.hashing.same pair.1 key
      (true, ⟨self.map.insert hash (collisions.eraseIdx pos), decrement self.count⟩)

def insert (callbacks : CFCallBacks) (self : DictionaryHostObject) (key retainedKey : Id) (value retainedValue : Option Id) :
    Except DictionaryPanic DictionaryHostObject :=
  let hash := callbacks.hashing.hash key
  let key := if callbacks.retainKey then retainedKey else key
  let value := if callbacks.retainValue then retainedValue else value
  let self := { self with count := increment self.count }
  match self.map.lookup hash with
  | none => .ok { self with map := self.map.insert hash [(key, value)] }
  | some _ =>
    let self := (remove callbacks self key).2
    match self.map.lookup hash with
    | none => .error .noCollisions
    | some collisions => .ok { self with map := self.map.insert hash (collisions ++ [(key, value)]) }

inductive Call where
  | insert (key retainedKey : Id) (value retainedValue : Option Id)
  | remove (key : Id)

def call (callbacks : CFCallBacks) (self : DictionaryHostObject) : Call → Except DictionaryPanic (Unit × DictionaryHostObject)
  | .insert key retainedKey value retainedValue => do
    let self ← insert callbacks self key retainedKey value retainedValue
    .ok ((), self)
  | .remove key => .ok ((), (remove callbacks self key).2)

end CFDictionaryHostObject

/-! ### `_touchHLE_NSMutableDictionary` -/

/-- Mutable dictionaries, named by `ι`, each with the references that its methods have taken and not given back. -/
structure Dictionaries (ι : Type) where
  hostObject : ι → Option DictionaryHostObject
  refs : ι → Refs

structure Entry where
  key : Id
  value : Id
  copied : Id

namespace Dictionaries
variable {ι : Type} [DecidableEq ι]

def start : Dictionaries ι := ⟨fun _ => none, fun _ _ => 0⟩

variable (methods : Hashing Nat Id) (s : Dictionaries ι)

def borrow (this : ι) : Except DictionaryPanic DictionaryHostObject :=
  match s.hostObject this with
  | none => .error .noHostObject
  | some hostObj => .ok hostObj

def setHostObject (this : ι) (hostObj : DictionaryHostObject) : Dictionaries ι :=
  { s with hostObject := update s.hostObject this (some hostObj) }

def setRefs (this : ι) (refs : Refs) : Dictionaries ι := { s with refs := update s.refs this refs }

def take (this : ι) : Except DictionaryPanic (DictionaryHostObject × Dictionaries ι) := do
  let hostObj ← s.borrow this
  .ok (hostObj, s.setHostObject this .empty)

def new (this : ι) : Dictionaries ι := s.setHostObject this .empty

def dealloc (this : ι) : Except DictionaryPanic (Dictionaries ι) := do
  let r ← s.take this
  let s := r.2.setRefs this (r.1.releaseAll (r.2.refs this))
  .ok { s with hostObject := update s.hostObject this none }

def setObjectForKey (this : ι) (object key copied : Id) : Except DictionaryPanic (Dictionaries ι) := do
  let r ← s.take this
  let inserted := r.1.insert methods (r.2.refs this) key copied object true
  .ok ((r.2.setRefs this inserted.2).setHostObject this inserted.1)

def removeObjectForKey (this : ι) (key : Id) : Except DictionaryPanic (Dictionaries ι) := do
  let r ← s.take this
  let removed := r.1.remove methods (r.2.refs this) key
  .ok ((r.2.setRefs this removed.2).setHostObject this removed.1)

def removeAllObjects (this : ι) : Except DictionaryPanic (Dictionaries ι) := do
  let r ← s.take this
  .ok (r.2.setRefs this (r.1.releaseAll (r.2.refs this)))

/-- `entries` are the pairs of the other dictionary in the order in which the iterator gives them. -/
def addEntriesFromDictionary (methods : Hashing Nat Id) (s : Dictionaries ι) (this other : ι) (entries : List Entry) :
    Except DictionaryPanic (Dictionaries ι) := do
  let r ← s.take other
  let s ← entries.foldlM (fun s e => s.setObjectForKey methods this e.value e.key e.copied) r.2
  .ok (s.setHostObject other r.1)

inductive Call (ι : Type) where
  | new (this : ι)
  | dealloc (this : ι)
  | setObjectForKey (this : ι) (object key copied : Id)
  | removeObjectForKey (this : ι) (key : Id)
  | removeAllObjects (this : ι)
  | addEntriesFromDictionary (this other : ι) (entries : List Entry)

def call (c : Call ι) : Except DictionaryPanic (Unit × Dictionaries ι) := do
  let t ← match c with
    | .new this => .ok (s.new this)
    | .dealloc this => s.dealloc this
    | .setObjectForKey this object key copied => s.setObjectForKey methods this object key copied
    | .removeObjectForKey this key => s.removeObjectForKey methods this key
    | .removeAllObjects this => s.removeAllObjects this
    | .addEntriesFromDictionary this other entries => s.addEntriesFromDictionary methods this other entries
  .ok ((), t)

end Dictionaries

end TouchHLE.Foundation
