import TouchHLE.Environment.State
import TouchHLE.Lib.Run
import TouchHLE.Mem.Memory

/-! The registration of selectors: `touchHLE/src/objc/selectors.rs`, `add_methods_from_bin` of `objc/methods.rs` and the
    functions for C strings of `mem.rs`. Names are the UTF-8 bytes of strings and a selector is a pointer to one. -/

namespace TouchHLE.Objc
open Lib
open Environment (readLe)

inductive SelectorPanic where
  | pastEnd
  | notUtf8
  | selrefsSize
  | entsize
deriving DecidableEq

structure Selectors where
  mem : Nat → UInt8
  selectors : List UInt8 → Option Nat

namespace Selectors

def cstrLoop (mem : Nat → UInt8) : Nat → Nat → Except SelectorPanic (List UInt8)
  | 0, _ => .error .pastEnd
  | n + 1, ptr =>
    if mem ptr = 0 then .ok []
    else do
      let rest ← cstrLoop mem n (ptr + 1)
      .ok (mem ptr :: rest)

def cstrAt (mem : Nat → UInt8) (ptr : Nat) : Except SelectorPanic (List UInt8) := cstrLoop mem (2 ^ 32 - ptr) ptr

def cstrAtUtf8 (mem : Nat → UInt8) (ptr : Nat) : Except SelectorPanic (List UInt8) := do
  let bytes ← cstrAt mem ptr
  if bytes.toByteArray.validateUTF8 then .ok bytes else .error .notUtf8

def read (mem : Nat → UInt8) (ptr size : Nat) : Except SelectorPanic Nat :=
  if ptr + size ≤ 2 ^ 32 then .ok (readLe mem ptr size) else .error .pastEnd

def writeLe (mem : Nat → UInt8) (ptr size value : Nat) : Nat → UInt8 :=
  fun x => if ptr ≤ x ∧ x < ptr + size then .ofNat (value / 256 ^ (x - ptr)) else mem x

/-- `alloc` is what the guest allocator returns. -/
def allocAndWriteCstr (mem : Nat → UInt8) (strBytes : List UInt8) (alloc : Nat) : Except SelectorPanic (Nat × (Nat → UInt8)) :=
  if alloc + strBytes.length < 2 ^ 32 then .ok (alloc, Mem.overwrite mem alloc (strBytes ++ [0])) else .error .pastEnd

variable (self : Selectors) (name : List UInt8)

def lookupSelector : Option Nat := self.selectors name

def insert (sel : Nat) : Selectors := { self with selectors := Function.update self.selectors name (some sel) }

def registerHostSelector (alloc : Nat) : Except SelectorPanic (Nat × Selectors) :=
  match self.lookupSelector name with
  | some existing => .ok (existing, self)
  | none => do
    let r ← allocAndWriteCstr self.mem name alloc
    .ok (r.1, { self with mem := r.2 }.insert name r.1)

def registerEach {β : Type} (round : Selectors → β → Except SelectorPanic ((List UInt8 × Nat) × Selectors)) (self : Selectors) :
    List β → Except SelectorPanic (List (List UInt8 × Nat) × Selectors)
  | [] => .ok ([], self)
  | b :: bs => do
    let r ← round self b
    let rest ← registerEach round r.2 bs
    .ok (r.1 :: rest.1, rest.2)

/-- One round of `register_host_selectors`: the name of a method, and what the guest allocator returns if it is new. -/
def registerTemplate (name : List UInt8 × Nat) : Except SelectorPanic ((List UInt8 × Nat) × Selectors) := do
  let r ← self.registerHostSelector name.1 name.2
  .ok ((name.1, r.1), r.2)

def registerHostSelectors (names : List (List UInt8 × Nat)) : Except SelectorPanic (List (List UInt8 × Nat) × Selectors) :=
  self.registerEach registerTemplate names

def registerBinSelector (selCstr : Nat) : Except SelectorPanic ((List UInt8 × Nat) × Selectors) := do
  let selStr ← cstrAtUtf8 self.mem selCstr
  match self.lookupSelector selStr with
  | some existingSel => .ok ((selStr, existingSel), self)
  | none => .ok ((selStr, selCstr), self.insert selStr selCstr)

def registerSlot (selref : Nat) : Except SelectorPanic ((List UInt8 × Nat) × Selectors) := do
  let selCstr ← read self.mem selref 4
  let r ← self.registerBinSelector selCstr
  .ok (r.1, { r.2 with mem := writeLe r.2.mem selref 4 r.1.2 })

def slots (addr size : Nat) : List Nat := (List.range (size / 4)).map fun i => addr + 4 * i

def registerBinSelectors (addr size : Nat) : Except SelectorPanic (List (List UInt8 × Nat) × Selectors) :=
  if size % 4 ≠ 0 then .error .selrefsSize else self.registerEach registerSlot (slots addr size)

/-- One round of `add_methods_from_bin`; the name is the first of the three words of a `method_t`. -/
def addMethod (methodPtr : Nat → Nat) (self : Selectors) (i : Nat) : Except SelectorPanic ((List UInt8 × Nat) × Selectors) := do
  let method ← read self.mem (methodPtr i) 12
  self.registerBinSelector (method % 2 ^ 32)

def addMethodsFromBin (methodList : Nat) : Except SelectorPanic (List (List UInt8 × Nat) × Selectors) := do
  let entsize ← read self.mem methodList 4
  let count ← read self.mem (methodList + 4) 4
  if entsize < 12 then .error .entsize
  else if 2 ^ 32 ≤ methodList + 8 then .error .pastEnd
  else self.registerEach (addMethod fun i => (methodList + 8 + i * entsize) % 2 ^ 32) (.range count)

def selRegisterName (self : Selectors) (name alloc : Nat) : Except SelectorPanic ((List UInt8 × Nat) × Selectors) := do
  let name ← cstrAtUtf8 self.mem name
  match self.lookupSelector name with
  | some existing => .ok ((name, existing), self)
  | none =>
    let r ← self.registerHostSelector name alloc
    .ok ((name, r.1), r.2)

inductive Call where
  | registerBinSelectors (addr size : Nat)
  | registerHostSelectors (names : List (List UInt8 × Nat))
  | registerHostSelector (name : List UInt8) (alloc : Nat)
  | addMethodsFromBin (methodList : Nat)
  | selRegisterName (name alloc : Nat)
  /-- Something else writes to the guest memory. -/
  | write (ptr : Nat) (byte : UInt8)

def call (s : Selectors) : Call → Except SelectorPanic (List (List UInt8 × Nat) × Selectors)
  | .registerBinSelectors addr size => s.registerBinSelectors addr size
  | .registerHostSelectors names => s.registerHostSelectors names
  | .registerHostSelector name alloc => do
    let r ← s.registerTemplate (name, alloc)
    .ok ([r.1], r.2)
  | .addMethodsFromBin methodList => s.addMethodsFromBin methodList
  | .selRegisterName name alloc => do
    let r ← s.selRegisterName name alloc
    .ok ([r.1], r.2)
  | .write ptr byte => .ok ([], { s with mem := Function.update s.mem ptr byte })

def start (mem : Nat → UInt8) : Selectors := ⟨mem, fun _ => none⟩

end Selectors

end TouchHLE.Objc
