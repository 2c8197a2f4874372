import TouchHLE.Foundation.NSDictionary

/-! Dictionaries with callbacks: `touchHLE/src/frameworks/core_foundation/cf_dictionary.rs`, and the class
    `_touchHLE_NSMutableDictionary_non_retaining` of `foundation/ns_dictionary.rs` behind it.

    Keys and values are arbitrary pointers. The callbacks are functions of the guest, which has a state of its own; what is
    done to a key or a value is recorded. A callback that uses its own dictionary is not modelled. -/

namespace TouchHLE.CoreFoundation
open Lib
open Foundation (increment decrement)

/-- A `void *`; zero is `NULL` and `nil`. -/
abbrev VoidPtr := UInt32

inductive Role where
  | key | value
deriving DecidableEq

inductive Touch where
  | hash (key : VoidPtr)
  | equal (key1 key2 : VoidPtr)
  /-- The callback returns the pointer that is to be stored. -/
  | retain (role : Role) (pointer stored : VoidPtr)
  | release (role : Role) (pointer : VoidPtr)
  | message (object : VoidPtr)

structure Guest (σ : Type) where
  state : σ
  touches : List Touch

def Guest.touch {σ : Type} (self : Guest σ) (touch : Touch) (state : σ) : Guest σ := ⟨state, self.touches ++ [touch]⟩

/-- Functions of the guest; `none` is a null pointer. -/
structure CFDictionaryKeyCallBacks (σ : Type) where
  retain : Option (σ → VoidPtr → VoidPtr × σ)
  release : Option (σ → VoidPtr → σ)
  equal : Option (σ → VoidPtr → VoidPtr → Bool × σ)
  hash : Option (σ → VoidPtr → Nat × σ)

structure CFDictionaryValueCallBacks (σ : Type) where
  retain : Option (σ → VoidPtr → VoidPtr × σ)
  release : Option (σ → VoidPtr → σ)

inductive CFPanic where
  | allocator | capacity | valueCallbacks | nullKey
  | noCollisions
  | noHostObject
deriving DecidableEq

/-- `DictionaryHostObject`, with any pointers. -/
structure Table where
  map : Buckets Nat VoidPtr VoidPtr
  count : Nat

structure CFDictionaryHostObject (σ : Type) where
  superclass : Table
  keyCallbacks : CFDictionaryKeyCallBacks σ
  valueCallbacks : CFDictionaryValueCallBacks σ

variable {σ : Type}

def Table.empty : Table := ⟨.empty, 0⟩

def CFDictionaryHostObject.default : CFDictionaryHostObject σ := ⟨.empty, ⟨none, none, none, none⟩, none, none⟩

/-- A `retain` callback, if there is one; otherwise the pointer is stored as it is. -/
def retainWith (role : Role) (f : Option (σ → VoidPtr → VoidPtr × σ)) (guest : Guest σ) (pointer : VoidPtr) :
    VoidPtr × Guest σ :=
  match f with
  | none => (pointer, guest)
  | some f => ((f guest.state pointer).1, guest.touch (.retain role pointer (f guest.state pointer).1) (f guest.state pointer).2)

def releaseWith (role : Role) (f : Option (σ → VoidPtr → σ)) (guest : Guest σ) (pointer : VoidPtr) : Guest σ :=
  match f with
  | none => guest
  | some f => guest.touch (.release role pointer) (f guest.state pointer)

namespace CFDictionaryHostObject

def hash (self : CFDictionaryHostObject σ) (guest : Guest σ) (key : VoidPtr) : Nat × Guest σ :=
  match self.keyCallbacks.hash with
  | none => (key.toNat, guest)
  | some f => ((f guest.state key).1, guest.touch (.hash key) (f guest.state key).2)

variable (self : CFDictionaryHostObject σ) (guest : Guest σ)

def equalKeys (key1 key2 : VoidPtr) : Bool × Guest σ :=
  match self.keyCallbacks.equal with
  | none => (key1 == key2, guest)
  | some f => ((f guest.state key1 key2).1, guest.touch (.equal key1 key2) (f guest.state key1 key2).2)

def retainKey (key : VoidPtr) : VoidPtr × Guest σ := retainWith .key self.keyCallbacks.retain guest key

def releaseKey (key : VoidPtr) : Guest σ := releaseWith .key self.keyCallbacks.release guest key

def retainValue (value : VoidPtr) : VoidPtr × Guest σ := retainWith .value self.valueCallbacks.retain guest value

def releaseValue (value : VoidPtr) : Guest σ := releaseWith .value self.valueCallbacks.release guest value

def search (self : CFDictionaryHostObject σ) (key : VoidPtr) :
    List (VoidPtr × VoidPtr) → Guest σ → Option (Nat × VoidPtr × VoidPtr) × Guest σ
  | [], guest => (none, guest)
  | pair :: rest, guest =>
    let equal := self.equalKeys guest pair.1 key
    if equal.1 then (some (0, pair), equal.2)
    else
      let found := self.search key rest equal.2
      (found.1.map fun f => (f.1 + 1, f.2), found.2)

def find (key : VoidPtr) : Option (Nat × Nat × VoidPtr × VoidPtr) × Guest σ :=
  let hash := self.hash guest key
  match self.superclass.map.lookup hash.1 with
  | none => (none, hash.2)
  | some collisions =>
    let found := self.search key collisions hash.2
    (found.1.map fun f => (hash.1, f), found.2)

def lookup (key : VoidPtr) : VoidPtr × Guest σ :=
  let found := self.find guest key
  match found.1 with
  | none => (0, found.2)
  | some f => (f.2.2.2, found.2)

def remove (key : VoidPtr) : Bool × CFDictionaryHostObject σ × Guest σ :=
  let found := self.find guest key
  match found.1 with
  | none => (false, self, found.2)
  | some f =>
    let collisions := (self.superclass.map.bucket f.1).eraseIdx f.2.1
    let guest := self.releaseKey found.2 f.2.2.1
    let guest := self.releaseValue guest f.2.2.2
    (true, { self with superclass := ⟨self.superclass.map.insert f.1 collisions, decrement self.superclass.count⟩ }, guest)

def insert (self : CFDictionaryHostObject σ) (guest : Guest σ) (key value : VoidPtr) :
    Except CFPanic (CFDictionaryHostObject σ × Guest σ) :=
  let hash := self.hash guest key
  let key := self.retainKey hash.2 key
  let value := self.retainValue key.2 value
  let self := { self with superclass := { self.superclass with count := increment self.superclass.count } }
  match self.superclass.map.lookup hash.1 with
  | none =>
    .ok ({ self with superclass := { self.superclass with map := self.superclass.map.insert hash.1 [(key.1, value.1)] } }, value.2)
  | some _ =>
    let removed := self.remove value.2 key.1
    let self := removed.2.1
    match self.superclass.map.lookup hash.1 with
    | none => .error .noCollisions
    | some collisions =>
      let map := self.superclass.map.insert hash.1 (collisions ++ [(key.1, value.1)])
      .ok ({ self with superclass := { self.superclass with map } }, removed.2.2)

end CFDictionaryHostObject

/-- A dictionary, until it is deallocated, and the guest. -/
structure CFDictionary (σ : Type) where
  hostObject : Option (CFDictionaryHostObject σ)
  guest : Guest σ

namespace CFDictionary

def initWithCallbacks (host : CFDictionaryHostObject σ) (key : Option (CFDictionaryKeyCallBacks σ))
    (value : Option (CFDictionaryValueCallBacks σ)) : Except CFPanic (CFDictionaryHostObject σ) :=
  match key with
  | none => .ok host
  | some keyCallbacks =>
    match value with
    | none => .error .valueCallbacks
    | some valueCallbacks => .ok { host with keyCallbacks, valueCallbacks }

/-- `CFDictionaryCreateMutable`; only the default allocator and no capacity are implemented. -/
def createMutable (state : σ) (defaultAllocator : Bool) (capacity : Int) (key : Option (CFDictionaryKeyCallBacks σ))
    (value : Option (CFDictionaryValueCallBacks σ)) : Except CFPanic (CFDictionary σ) := do
  if defaultAllocator = false then .error .allocator
  else if capacity ≠ 0 then .error .capacity
  else
    let host ← initWithCallbacks .default key value
    .ok ⟨some host, state, []⟩

variable (self : CFDictionary σ) (key : VoidPtr)

def borrow : Except CFPanic (CFDictionaryHostObject σ) :=
  match self.hostObject with
  | none => .error .noHostObject
  | some host => .ok host

def objectForKey : Except CFPanic (VoidPtr × CFDictionary σ) := do
  let host ← self.borrow
  let res := host.lookup self.guest key
  .ok (res.1, ⟨some host, res.2⟩)

def setObjectForKey (object key : VoidPtr) : Except CFPanic (CFDictionary σ) := do
  if key = 0 then .error .nullKey
  else
    let host ← self.borrow
    let res ← host.insert self.guest key object
    .ok ⟨some res.1, res.2⟩

def removeObjectForKey : Except CFPanic (CFDictionary σ) := do
  if key = 0 then .error .nullKey
  else
    let host ← self.borrow
    let res := host.remove self.guest key
    .ok ⟨some res.2.1, res.2.2⟩

def release (guest : Guest σ) (object : VoidPtr) : Guest σ :=
  if object = 0 then guest else guest.touch (.message object) guest.state

def removeAllObjects : Except CFPanic (CFDictionary σ) := do
  let host ← self.borrow
  let guest := host.superclass.map.pairs.foldl (fun guest pair => release (release guest pair.1) pair.2) self.guest
  .ok ⟨some { host with superclass := .empty }, guest⟩

def dealloc : Except CFPanic (CFDictionary σ) := do
  let _ ← self.borrow
  .ok { self with hostObject := none }

def addValue (key value : VoidPtr) : Except CFPanic (CFDictionary σ) := do
  let res ← self.objectForKey key
  if res.1 = 0 then res.2.setObjectForKey value key else .ok res.2

def setValue (key value : VoidPtr) : Except CFPanic (CFDictionary σ) := self.setObjectForKey value key

def removeValue : Except CFPanic (CFDictionary σ) := self.removeObjectForKey key

/-- `CFDictionaryRemoveAllValues`, where `keys` are those of `allKeys`; the end of an enumeration is `nil`. -/
def removeAllValues (self : CFDictionary σ) (keys : List VoidPtr) : Except CFPanic (CFDictionary σ) := do
  let _ ← self.borrow
  (keys.takeWhile (· ≠ 0)).foldlM removeValue self

inductive Call (σ : Type) where
  | addValue (key value : VoidPtr)
  | setValue (key value : VoidPtr)
  | removeValue (key : VoidPtr)
  | removeAllValues (keys : List VoidPtr)
  | removeAllObjects
  | dealloc
  | elsewhere (state : σ)

def perform : Call σ → Except CFPanic (CFDictionary σ)
  | .addValue key value => self.addValue key value
  | .setValue key value => self.setValue key value
  | .removeValue key => self.removeValue key
  | .removeAllValues keys => self.removeAllValues keys
  | .removeAllObjects => self.removeAllObjects
  | .dealloc => self.dealloc
  | .elsewhere state => .ok { self with guest := { self.guest with state } }

def call (c : Call σ) : Except CFPanic (Unit × CFDictionary σ) := do
  let self ← self.perform c
  .ok ((), self)

end CFDictionary
end TouchHLE.CoreFoundation
