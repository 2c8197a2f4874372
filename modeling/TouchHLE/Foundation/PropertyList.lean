import TouchHLE.Foundation.NSString

/-! Property lists: `touchHLE/src/frameworks/foundation/ns_property_list_serialization.rs`, with the numbers of
    `ns_value.rs`. A value of the `plist` crate is turned into a tree of new objects and back. Floating-point numbers are
    their bits. -/

namespace TouchHLE.Foundation.PropertyList
open Lib

/-- `plist::Integer`: what fits in `i64` or in `u64` -/
structure Integer where
  value : Int
  lower : -2 ^ 63 ≤ value
  upper : value < 2 ^ 64
deriving DecidableEq

namespace Integer

def asSigned (n : Integer) : Option Int64 := if n.value < 2 ^ 63 then some (.ofInt n.value) else none

def asUnsigned (n : Integer) : Option UInt64 := if 0 ≤ n.value then some (.ofNat n.value.toNat) else none

def ofInt64 (x : Int64) : Integer := ⟨x.toInt, x.le_toInt, x.toInt_lt.trans (by decide)⟩

def ofInt32 (x : Int32) : Integer := ⟨x.toInt, le_trans (by decide) x.le_toInt, x.toInt_lt.trans (by decide)⟩

def ofInt16 (x : Int16) : Integer := ⟨x.toInt, le_trans (by decide) x.le_toInt, x.toInt_lt.trans (by decide)⟩

def ofInt8 (x : Int8) : Integer := ⟨x.toInt, le_trans (by decide) x.le_toInt, x.toInt_lt.trans (by decide)⟩

def ofUInt32 (x : UInt32) : Integer :=
  ⟨x.toNat, le_trans (by decide) (Int.natCast_nonneg _), lt_trans (Int.ofNat_lt.mpr x.toNat_lt) (by decide)⟩

end Integer

abbrev Text := List Char

inductive Value where
  | array (items : List Value)
  | dictionary (entries : List (Text × Value))
  | boolean (b : Bool)
  | data (bytes : List UInt8)
  | date (time : Int)
  | integer (n : Integer)
  | real (bits : UInt64)
  | string (text : Text)
  | uid (n : UInt64)

inductive NSNumberHostObject where
  | bool (b : Bool)
  | unsignedLongLong (x : UInt64)
  | unsignedInt (x : UInt32)
  | int (x : Int32)
  | longLong (x : Int64)
  | float (bits : UInt32)
  | double (bits : UInt64)
  | short (x : Int16)
  | unsignedShort (x : UInt16)
  | char (x : Int8)

/-- Touchhle's own class for a kind of object, its mutable one, or a class that the guest has derived from them. -/
inductive Isa where
  | immutable | mutable | foreign
deriving DecidableEq

/-- An object with its host object. The pairs of a dictionary come in the order of its hash map. -/
inductive Object where
  | dictionary (isa : Isa) (pairs : List (Object × Object))
  | array (isa : Isa) (array : List Object)
  | string (isa : Isa) (hostObj : StringHostObject)
  | number (isa : Isa) (hostObj : NSNumberHostObject)
  | data (isa : Isa) (bytes : List UInt8)
  | date (isa : Isa) (timeInterval : UInt64)

inductive PlistPanic where
  | unreachable
  | unimplemented
  | todo
  | tryFromInt
  /-- `assert!(env.objc.get_class_name(class).starts_with("_touchHLE_NS"))` -/
  | foreignClass
  /-- `assert!(env.objc.class_is_subclass_of(key_class, str_class))` -/
  | keyClass
  | fromUtf16
  /-- `Duration::from_secs_f64` of a number that is too large -/
  | duration
deriving DecidableEq

/-- What is left open: conversions of floating-point numbers and times, and the order of a hash map. -/
structure Host where
  widen : UInt32 → UInt64
  sinceEpoch : Int → UInt64
  afterEpoch : UInt64 → Option Int
  order : List (Object × Object) → List (Object × Object)
  order_perm : ∀ pairs, (order pairs).Perm pairs

/-! ### `deserialize_plist` -/

abbrev MutabilityOptions := Nat

def NSPropertyListImmutable : MutabilityOptions := 0
def NSPropertyListMutableContainers : MutabilityOptions := 1
def NSPropertyListMutableContainersAndLeaves : MutabilityOptions := 2

def containerIsa : MutabilityOptions → Except PlistPanic Isa
  | 0 => .ok .immutable
  | 1 | 2 => .ok .mutable
  | _ => .error .unreachable

def leafIsa : MutabilityOptions → Except PlistPanic Isa
  | 0 | 1 => .ok .immutable
  | 2 => .ok .mutable
  | _ => .error .unreachable

def Object.text : Object → Option Text
  | .string _ hostObj => hostObj.toUtf8
  | _ => none

def insertPair (pairs : List (Object × Object)) (pair : Object × Object) : List (Object × Object) :=
  if pairs.any fun p => p.1.text == pair.1.text then
    pairs.map fun p => if p.1.text == pair.1.text then (p.1, pair.2) else p
  else pairs ++ [pair]

def deserializeData (mutOptions : MutabilityOptions) (bytes : List UInt8) : Except PlistPanic Object :=
  if bytes.length < 2 ^ 32 then do
    let isa ← leafIsa mutOptions
    .ok (.data isa bytes)
  else .error .tryFromInt

def deserializeInteger (n : Integer) : Except PlistPanic Object :=
  match n.asSigned with
  | some int64 => .ok (.number .immutable (.longLong int64))
  | none =>
    match n.asUnsigned with
    | some uint64 => .ok (.number .immutable (.unsignedLongLong uint64))
    | none => .error .unreachable

mutual

def deserializePlist (host : Host) (mutOptions : MutabilityOptions) : Value → Except PlistPanic Object
  | .array items => do
    let array ← deserializeItems host mutOptions items
    let isa ← containerIsa mutOptions
    .ok (.array isa array)
  | .dictionary entries => do
    let pairs ← deserializeEntries host mutOptions entries
    let isa ← containerIsa mutOptions
    .ok (.dictionary isa (host.order (pairs.foldl insertPair [])))
  | .boolean b => .ok (.number .immutable (.bool b))
  | .data bytes => deserializeData mutOptions bytes
  | .date time => .ok (.date .immutable (host.sinceEpoch time))
  | .integer n => deserializeInteger n
  | .real bits => .ok (.number .immutable (.double bits))
  | .string text => do
    let isa ← leafIsa mutOptions
    .ok (.string isa (.utf8 text))
  | .uid _ => .error .unimplemented

def deserializeItems (host : Host) (mutOptions : MutabilityOptions) : List Value → Except PlistPanic (List Object)
  | [] => .ok []
  | value :: items => do
    let object ← deserializePlist host mutOptions value
    let array ← deserializeItems host mutOptions items
    .ok (object :: array)

def deserializeEntries (host : Host) (mutOptions : MutabilityOptions) :
    List (Text × Value) → Except PlistPanic (List (Object × Object))
  | [] => .ok []
  | (key, value) :: entries => do
    let object ← deserializePlist host mutOptions value
    let pairs ← deserializeEntries host mutOptions entries
    .ok ((.string .immutable (.utf8 key), object) :: pairs)

end

def assertInternal (isa : Isa) : Except PlistPanic Unit := if isa = .foreign then .error .foreignClass else .ok ()

def toRustString (hostObj : StringHostObject) : Except PlistPanic Text :=
  match hostObj.toUtf8 with
  | none => .error .fromUtf16
  | some text => .ok text

def insertEntry (entries : List (Text × Value)) (key : Text) (value : Value) : List (Text × Value) :=
  if (entries.lookup key).isSome then entries.map fun e => if e.1 = key then (key, value) else e
  else entries ++ [(key, value)]

def serializeKey : Object → Except PlistPanic Text
  | .string isa hostObj => do
    assertInternal isa
    toRustString hostObj
  | _ => .error .keyClass

def serializeNumber (host : Host) : NSNumberHostObject → Except PlistPanic Value
  | .bool b => .ok (.boolean b)
  | .int x => .ok (.integer (.ofInt32 x))
  | .unsignedInt x => .ok (.integer (.ofUInt32 x))
  | .float bits => .ok (.real (host.widen bits))
  | .double bits => .ok (.real bits)
  | .longLong x => .ok (.integer (.ofInt64 x))
  | .short x => .ok (.integer (.ofInt16 x))
  | .char x => .ok (.integer (.ofInt8 x))
  | .unsignedLongLong _ | .unsignedShort _ => .error .todo

mutual

def serializePlist (host : Host) : Object → Except PlistPanic Value
  | .dictionary isa pairs => do
    assertInternal isa
    let dict ← serializePairs host [] pairs
    .ok (.dictionary dict)
  | .array isa array => do
    assertInternal isa
    let arr ← serializeItems host array
    .ok (.array arr)
  | .string isa hostObj => do
    assertInternal isa
    let text ← toRustString hostObj
    .ok (.string text)
  | .number isa num => if isa = .foreign then .error .unimplemented else serializeNumber host num
  | .data _ bytes => .ok (.data bytes)
  | .date isa timeInterval =>
    if isa = .foreign then .error .unimplemented
    else
      match host.afterEpoch timeInterval with
      | none => .error .duration
      | some time => .ok (.date time)

def serializeItems (host : Host) : List Object → Except PlistPanic (List Value)
  | [] => .ok []
  | object :: array => do
    let value ← serializePlist host object
    let arr ← serializeItems host array
    .ok (value :: arr)

def serializePairs (host : Host) (dict : List (Text × Value)) :
    List (Object × Object) → Except PlistPanic (List (Text × Value))
  | [] => .ok dict
  | (key, val) :: pairs => do
    let keyString ← serializeKey key
    let valPlist ← serializePlist host val
    serializePairs host (insertEntry dict keyString valPlist) pairs

end

end TouchHLE.Foundation.PropertyList
