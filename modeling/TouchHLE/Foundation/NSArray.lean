import Mathlib.Logic.Function.Basic
import TouchHLE.Lib.Outcome
import TouchHLE.Lib.Run

/-! `_touchHLE_NSMutableArray`: the mutation methods of `touchHLE/src/frameworks/foundation/ns_array.rs`. Arrays are named
    by `ι` and hold objects of `α`, which are never `nil`; `isEqual` answers `isEqual:`. -/

namespace TouchHLE.Foundation
open Lib Function

inductive ArrayPanic where
  | noHostObject
  | outOfBounds
  | empty
  | count
deriving DecidableEq

/-- The arrays, each with the references to objects that its methods have taken and not given back. -/
structure Arrays (ι α : Type) where
  hostObject : ι → Option (List α)
  refs : ι → α → Int

namespace Arrays
variable {ι α : Type} [DecidableEq ι] [DecidableEq α]

def start : Arrays ι α := ⟨fun _ => none, fun _ _ => 0⟩

variable (s : Arrays ι α) (this : ι)

def borrow : Except ArrayPanic (List α) :=
  match s.hostObject this with
  | none => .error .noHostObject
  | some array => .ok array

def setArray (array : List α) : Arrays ι α := { s with hostObject := update s.hostObject this (some array) }

def addRef (object : α) (n : Int) : Arrays ι α :=
  { s with refs := update s.refs this (update (s.refs this) object (s.refs this object + n)) }

def retain (object : α) : Arrays ι α := s.addRef this object 1

def release (object : α) : Arrays ι α := s.addRef this object (-1)

def new : Arrays ι α := s.setArray this []

def dealloc : Except ArrayPanic (Arrays ι α) := do
  let array ← s.borrow this
  let s := array.foldl (·.release this ·) (s.setArray this [])
  .ok { s with hostObject := update s.hostObject this none }

def count (s : Arrays ι α) (this : ι) : Except ArrayPanic Nat := do
  let array ← s.borrow this
  if array.length < 2 ^ 32 then .ok array.length else .error .count

def objectAtIndex (index : Nat) : Except ArrayPanic α := do
  let array ← s.borrow this
  match array[index]? with
  | none => .error .outOfBounds
  | some object => .ok object

def insertObjectAtIndex (object : α) (index : Nat) : Except ArrayPanic (Arrays ι α) := do
  let s := s.retain this object
  let array ← s.borrow this
  if index ≤ array.length then .ok (s.setArray this (array.insertIdx index object)) else .error .outOfBounds

def addObject (object : α) : Except ArrayPanic (Arrays ι α) := do
  let s := s.retain this object
  let array ← s.borrow this
  .ok (s.setArray this (array ++ [object]))

def removeObjectAtIndex (index : Nat) : Except ArrayPanic (Arrays ι α) := do
  let array ← s.borrow this
  match array[index]? with
  | none => .error .outOfBounds
  | some object => .ok ((s.setArray this (array.eraseIdx index)).release this object)

/-- First the indexes of the equal objects are collected, then the objects at these indexes are removed in turn. -/
def removeObject (isEqual : α → α → Bool) (s : Arrays ι α) (this : ι) (object : α) : Except ArrayPanic (Arrays ι α) := do
  let count ← s.count this
  let toRemove ← (List.range count).foldlM (fun toRemove i => do
    let currObject ← s.objectAtIndex this i
    .ok (if isEqual object currObject then toRemove ++ [i] else toRemove)) []
  toRemove.foldlM (·.removeObjectAtIndex this ·) s

def replaceObjectAtIndex (index : Nat) (obj : α) : Except ArrayPanic (Arrays ι α) := do
  let s := s.retain this obj
  let array ← s.borrow this
  match array[index]? with
  | none => .error .outOfBounds
  | some object => .ok ((s.setArray this (array.set index obj)).release this object)

def removeLastObject : Except ArrayPanic (Arrays ι α) := do
  let array ← s.borrow this
  match array.getLast? with
  | none => .error .empty
  | some object => .ok ((s.setArray this array.dropLast).release this object)

def removeAllObjects : Except ArrayPanic (Arrays ι α) := do
  let array ← s.borrow this
  .ok ((array.foldl (·.release this ·) (s.setArray this [])).setArray this [])

def addObjectsFromArray (s : Arrays ι α) (this other : ι) : Except ArrayPanic (Arrays ι α) := do
  let array ← s.borrow other
  array.foldlM (·.addObject this ·) s

inductive Call (ι α : Type) where
  | new (this : ι)
  | dealloc (this : ι)
  | insertObjectAtIndex (this : ι) (object : α) (index : Nat)
  | addObject (this : ι) (object : α)
  | removeObject (this : ι) (object : α)
  | removeObjectAtIndex (this : ι) (index : Nat)
  | replaceObjectAtIndex (this : ι) (index : Nat) (obj : α)
  | removeLastObject (this : ι)
  | removeAllObjects (this : ι)
  | addObjectsFromArray (this other : ι)

def call (isEqual : α → α → Bool) (s : Arrays ι α) (c : Call ι α) : Except ArrayPanic (Unit × Arrays ι α) := do
  let t ← match c with
    | .new this => .ok (s.new this)
    | .dealloc this => s.dealloc this
    | .insertObjectAtIndex this object index => s.insertObjectAtIndex this object index
    | .addObject this object => s.addObject this object
    | .removeObject this object => s.removeObject isEqual this object
    | .removeObjectAtIndex this index => s.removeObjectAtIndex this index
    | .replaceObjectAtIndex this index obj => s.replaceObjectAtIndex this index obj
    | .removeLastObject this => s.removeLastObject this
    | .removeAllObjects this => s.removeAllObjects this
    | .addObjectsFromArray this other => s.addObjectsFromArray this other
  .ok ((), t)

end Arrays

end TouchHLE.Foundation
