import TouchHLE.Lib.Worklist
import TouchHLE.Objc.Selectors

/-! Classes of the application binary: `register_bin_classes` of `touchHLE/src/objc/classes.rs` with the reconciliation of
    instance variables, `add_ivars_from_bin` and `object_lookup_ivar` of `objc/properties.rs`. -/

namespace TouchHLE.Objc
open Lib Function
open Environment (readLe)

inductive ClassPanic where
  /-- A panic of the guest memory or of the registration of selectors. -/
  | memory (panic : SelectorPanic)
  | classlistSize
  | ivarEntsize
  | namesDiffer
  | registered
  | noHostObject
  | nsObjectTwice
  | rootTwice
  | noNsObject
  /-- A loop takes more rounds than it is given here. -/
  | late
deriving DecidableEq

inductive InitializationStatus where
  | notInitialized
  | initializing
  | initialized
deriving DecidableEq

structure ClassHostObject where
  name : List UInt8
  isMetaclass : Bool
  superclass : Nat
  /-- The pointer to the offset, and the alignment, by name. -/
  ivars : List (List UInt8 × (Nat × Nat))
  instanceStart : Nat
  instanceSize : Nat
  isInitialized : InitializationStatus
deriving DecidableEq

inductive HostObject where
  | real (c : ClassHostObject)
  | unimplementedClass (name : List UInt8) (isMetaclass : Bool)
  | fakeClass (name : List UInt8) (isMetaclass : Bool)
  /-- An object that is not a class. -/
  | other
deriving DecidableEq

def HostObject.className : HostObject → Option (List UInt8)
  | .real c => some c.name
  | .unimplementedClass name _ => some name
  | .fakeClass name _ => some name
  | .other => none

/-- The guest memory with the selectors, the host objects and the classes by name. -/
structure ObjC where
  selectors : Selectors
  objects : Nat → Option HostObject
  classes : List UInt8 → Option Nat

variable (mem : Nat → UInt8)

def readStruct (ptr n : Nat) : Except ClassPanic (Nat → Nat) :=
  if ptr + 4 * n ≤ 2 ^ 32 then .ok fun k => readLe mem (ptr + 4 * k) 4 else .error (.memory .pastEnd)

def utf8At (ptr : Nat) : Except ClassPanic (List UInt8) := (Selectors.cstrAtUtf8 mem ptr).mapError .memory

def readIsa (object : Nat) : Except ClassPanic Nat := do
  let words ← readStruct mem object 1
  .ok (words 0)

def bytes (s : String) : List UInt8 := s.toUTF8.data.toList

def classNameShouldBeFaked (name : List UInt8) : Bool :=
  ["AdMob", "AltAds", "Mobclix", "FB", "Flurry", "OpenFeint", "Tapjoy", "AdWhirl", "iSimulate", "DMO"].any fun start =>
    (bytes start).isPrefixOf name

/-- The name of a `class_t` (the fifth word, `data`) in its `class_rw_t`. -/
def binName (cls : Nat) : Except ClassPanic (List UInt8) := do
  let classT ← readStruct mem cls 5
  let data ← readStruct mem (classT 4) 10
  utf8At mem (data 4)

def substituteClasses (cls metaclass : Nat) : Except ClassPanic (Option (List UInt8)) := do
  let name ← binName mem cls
  if classNameShouldBeFaked name then
    let metaclassName ← binName mem metaclass
    if name = metaclassName then .ok (some name) else .error .namesDiffer
  else .ok none

namespace ClassHostObject

def getIvar (self : ClassHostObject) (name : List UInt8) : Option (Nat × Nat) :=
  (self.ivars.find? fun e => e.1 = name).map (·.2)

def insertIvar (self : ClassHostObject) (name : List UInt8) (value : Nat × Nat) : ClassHostObject :=
  { self with ivars := self.ivars.filter (fun e => e.1 ≠ name) ++ [(name, value)] }

/-- One round of the loop of `add_ivars_from_bin`, with the words of an `ivar_t`: offset, name, type, alignment, size. -/
def addIvar (ivarPtr : Nat → Nat) (self : ClassHostObject) (i : Nat) :
    Except ClassPanic ClassHostObject := do
  let ivarT ← readStruct mem (ivarPtr i) 5
  let name ← utf8At mem (ivarT 1)
  .ok (self.insertIvar name (ivarT 0, ivarT 3))

def addIvarsFromBin (self : ClassHostObject) (ivarList : Nat) : Except ClassPanic ClassHostObject := do
  let header ← readStruct mem ivarList 2
  if header 0 < 20 then .error .ivarEntsize
  else if 2 ^ 32 ≤ ivarList + 8 then .error (.memory .pastEnd)
  else (List.range (header 1)).foldlM (addIvar mem fun i => (ivarList + 8 + i * header 0) % 2 ^ 32) self

def fromBin (selectors : Selectors) (cls : Nat) (isMetaclass : Bool) : Except ClassPanic (ClassHostObject × Selectors) := do
  let classT ← readStruct selectors.mem cls 5
  -- flags, instance_start, instance_size, reserved, name, base_methods, base_protocols, ivars, …
  let data ← readStruct selectors.mem (classT 4) 10
  let name ← utf8At selectors.mem (data 4)
  let hostObject : ClassHostObject := ⟨name, isMetaclass, classT 1, [], data 1, data 2, .notInitialized⟩
  let selectors' ←
    if data 5 = 0 then .ok selectors
    else do
      let r ← (selectors.addMethodsFromBin (data 5)).mapError .memory
      .ok r.2
  let hostObject' ← if data 7 = 0 then .ok hostObject else hostObject.addIvarsFromBin selectors'.mem (data 7)
  .ok (hostObject', selectors')

end ClassHostObject

namespace ObjC

variable (self : ObjC)

def registerStaticObject (guestObject : Nat) (hostObject : HostObject) : Except ClassPanic ObjC :=
  if (self.objects guestObject).isSome then .error .registered
  else .ok { self with objects := update self.objects guestObject (some hostObject) }

def registerPair (name : List UInt8) (cls metaclass : Nat) (classHostObject metaclassHostObject : HostObject) :
    Except ClassPanic ObjC := do
  let s ← self.registerStaticObject cls classHostObject
  let s ← s.registerStaticObject metaclass metaclassHostObject
  .ok { s with classes := update s.classes name (some cls) }

def registerBinClass (slot : Nat) : Except ClassPanic ObjC := do
  let cls ← readIsa self.selectors.mem slot
  let metaclass ← readIsa self.selectors.mem cls
  match ← substituteClasses self.selectors.mem cls metaclass with
  | some name => self.registerPair name cls metaclass (.fakeClass name false) (.fakeClass name true)
  | none =>
    let c ← ClassHostObject.fromBin self.selectors cls false
    let m ← ClassHostObject.fromBin c.2 metaclass true
    if c.1.name = m.1.name then
      registerPair { self with selectors := m.2 } c.1.name cls metaclass (.real c.1) (.real m.1)
    else .error .namesDiffer

def readClasses (addr size : Nat) : Except ClassPanic ObjC :=
  if size % 4 ≠ 0 then .error .classlistSize
  else ((List.range (size / 4)).map fun i => addr + 4 * i).foldlM registerBinClass self

/-- What the second pass collects: the queue, whether `NSObject` was found, and the subclasses of each class. -/
structure Inheritance where
  queue : List Nat
  foundNsObject : Bool
  inverted : Nat → List Nat

def nsObject : List UInt8 := bytes "NSObject"

def foundName (name : List UInt8) (g : Inheritance) : Except ClassPanic Inheritance :=
  if name = nsObject then
    if g.foundNsObject then .error .nsObjectTwice else .ok { g with foundNsObject := true }
  else .ok g

def invert (g : Inheritance) (e : List UInt8 × Nat) : Except ClassPanic Inheritance := do
  let g ← foundName e.1 g
  match self.objects e.2 with
  | none => .error .noHostObject
  | some (.real c) =>
    if c.superclass ≠ 0 then
      .ok { g with inverted := update g.inverted c.superclass (g.inverted c.superclass ++ [e.2]) }
    else if e.2 ∈ g.queue then .error .rootTwice
    else .ok { g with queue := g.queue ++ [e.2] }
  | some _ => .ok g

/-- The second pass; `order` is the order in which `classes` is iterated over. -/
def inheritance (order : List (List UInt8 × Nat)) : Except ClassPanic Inheritance := do
  let g ← order.foldlM self.invert ⟨[], false, fun _ => []⟩
  if g.foundNsObject then .ok g else .error .noNsObject

def needIvarReconciliation (cls : Nat) : Except ClassPanic (Bool × Nat) :=
  match self.objects cls with
  | none => .error .noHostObject
  | some (.real c) =>
    if c.superclass = 0 then .ok (false, 0)
    else
      match self.objects c.superclass with
      | none => .error .noHostObject
      | some (.real superclass) =>
        if c.instanceStart < superclass.instanceSize then .ok (true, superclass.instanceSize - c.instanceStart)
        else .ok (false, 0)
      | some _ => .ok (false, 0)
  | some _ => .ok (false, 0)

/-- Pointers that are null belong to anonymous bitfields. -/
def maxAlignment (ivars : List (List UInt8 × (Nat × Nat))) : Nat :=
  ivars.foldl (fun m e => if e.2.1 = 0 then m else max m e.2.2) 1

def alignDiff (maxAlignment diff : Nat) : Nat := ((diff + (maxAlignment - 1)) % 2 ^ 32) &&& (2 ^ 32 - maxAlignment)

def reconciledDiff (c : ClassHostObject) (diff : Nat) : Nat :=
  if c.ivars.isEmpty then diff else alignDiff (maxAlignment c.ivars) diff

def moveIvar (diff : Nat) (e : List UInt8 × (Nat × Nat)) : List UInt8 × (Nat × Nat) :=
  if e.2.1 = 0 then e else (e.1, (e.2.1 + diff) % 2 ^ 32, e.2.2)

def growBy (c : ClassHostObject) (diff : Nat) : ClassHostObject := { c with
    ivars := c.ivars.map (moveIvar diff)
    instanceStart := (c.instanceStart + diff) % 2 ^ 32
    instanceSize := (c.instanceSize + diff) % 2 ^ 32 }

def reconcile (next : Nat) : Except ClassPanic ObjC := do
  let r ← self.needIvarReconciliation next
  if r.1 then
    match self.objects next with
    | some (.real c) =>
      .ok { self with objects := update self.objects next (some (.real (growBy c (reconciledDiff c r.2)))) }
    | _ => .error .noHostObject
  else .ok self

/-- `classlist` is the section `__objc_classlist`, with its size. -/
def registerBinClasses (classlist : Option (Nat × Nat)) (order : List (List UInt8 × Nat)) : Except ClassPanic ObjC :=
  match classlist with
  | none => .ok self
  | some (addr, size) => do
    let s ← self.readClasses addr size
    let g ← s.inheritance order
    walk g.inverted reconcile .late order.length s g.queue

/-- The loop of `object_lookup_ivar`: the offset of an instance variable, looked up from a class on. -/
def lookupIvarFrom (self : ObjC) (name : List UInt8) : Nat → Nat → Except ClassPanic (Option Nat)
  | 0, _ => .error .late
  | n + 1, cls =>
    match self.objects cls with
    | some (.real c) =>
      match c.getIvar name with
      | some ivar => do
        let words ← readStruct self.selectors.mem ivar.1 1
        .ok (some (words 0))
      | none => if c.superclass = 0 then .ok none else self.lookupIvarFrom name n c.superclass
    | _ => .error .noHostObject

def objectLookupIvar (rounds obj : Nat) (name : List UInt8) : Except ClassPanic (Option Nat) := do
  let cls ← readIsa self.selectors.mem obj
  let offset ← self.lookupIvarFrom name rounds cls
  .ok (offset.map fun offset => (obj + offset) % 2 ^ 32)

end ObjC

end TouchHLE.Objc
