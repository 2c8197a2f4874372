import TouchHLE.Dyld

/-! What the dynamic linker is for: every reference to a function symbol ends at one implementation. The references of an
    image are listed with their words of memory, independently of how they are linked. -/

namespace TouchHLE.Dyld
open Mem (wrap)
open Environment (readLe)
variable {F C : Type}

inductive Impl (F : Type) where
  | host (f : F)
  /-- a function of a binary, with the Thumb bit -/
  | guest (addr : Nat)
deriving DecidableEq

variable (P : Image F C)

/-- The host function if there is one, and otherwise the function of the first binary that exports the symbol. -/
def Image.implementation (symbol : Symbol) : Option (Impl F) :=
  match P.hostFunction symbol with
  | some e => some (.host e.2)
  | none => (P.exported symbol).map .guest

def Image.Doubled (P : Image F C) (symbol : Symbol) : Prop := (P.hostFunction symbol).isSome ∧ (P.exported symbol).isSome

instance (P : Image F C) (symbol : Symbol) : Decidable (P.Doubled symbol) := inferInstanceAs (Decidable (_ ∧ _))

structure Stub where
  pc : Nat
  entrySize : Nat
  picOffset : Nat
  symbol : Option Symbol

namespace MachO

def stubs (bin : MachO) : List Stub :=
  match bin.symbolStubs with
  | none => []
  | some stubs =>
    match stubs.dyldIndirectSymbolInfo with
    | none => []
    | some info => (List.range (stubs.size / info.entrySize)).map fun k =>
      ⟨stubs.addr + k * info.entrySize, info.entrySize, Linker.picOffset bin stubs, info.indirectUndefSymbols[k]?.join⟩

def pointers (bin : MachO) : List (Nat × Symbol) :=
  match bin.nonLazySymbolPointers with
  | none => []
  | some ptrs =>
    match ptrs.dyldIndirectSymbolInfo with
    | none => []
    | some info => (List.range (ptrs.size / info.entrySize)).filterMap fun k =>
      info.indirectUndefSymbols[k]?.join.map (ptrs.addr + k * info.entrySize, ·)

def slots (bin : MachO) : List (Nat × Symbol) := bin.externalRelocations ++ bin.pointers

end MachO

/-- Relocations for classes are no references to functions. -/
def IsObjc (name : Symbol) : Prop :=
  Linker.objcClass.isPrefixOf name ∨ Linker.objcMetaclass.isPrefixOf name ∨ name = Linker.constantStringClass

instance (name : Symbol) : Decidable (IsObjc name) := inferInstanceAs (Decidable (_ ∨ _ ∨ _))

namespace Stub

def instructionCount (st : Stub) : Nat :=
  if st.entrySize = 4 then 1 else if st.entrySize = 12 then 2 else if st.entrySize = 16 then 3 else 0

/-- The address of the pointer that the stub jumps through once it is restored, where `mem` has been loaded. -/
def pointer (mem : Nat → UInt8) (st : Stub) : Nat :=
  if st.entrySize = 12 then readLe mem (st.pc + 8) 4
  else if st.entrySize = 4 then wrap (st.pc + st.picOffset + 8)
  else wrap (st.pc + readLe mem (st.pc + 12) 4 + 12)

def instructions (st : Stub) : List Nat :=
  if st.entrySize = 4 then [0xe59ff000 ||| st.picOffset]
  else if st.entrySize = 12 then symbolStubInstructions
  else picSymbolStubInstructions

end Stub

/-- A word that belongs to a binary: an instruction of a stub, the word after them, the pointer of a stub, or a slot. -/
inductive Spot where
  | code (i k w : Nat)
  | data (i k : Nat)
  | lazy (i k : Nat)
  | slot (i addr : Nat)
deriving DecidableEq

/-- A word that the linker uses; the others are those of the trampolines. -/
inductive Place where
  | spot (x : Spot)
  | heap (n w : Nat)
deriving DecidableEq

namespace Image

def stubs (P : Image F C) (i : Nat) : List Stub := P.bins[i]?.elim [] MachO.stubs

def relocations (i : Nat) : List (Nat × Symbol) := P.bins[i]?.elim [] MachO.externalRelocations

def pointers (P : Image F C) (i : Nat) : List (Nat × Symbol) := P.bins[i]?.elim [] MachO.pointers

def slots (P : Image F C) (i : Nat) : List (Nat × Symbol) := P.bins[i]?.elim [] MachO.slots

def address (mem : Nat → UInt8) : Place → Nat
  | .spot (.code i k w) => (P.stubs i)[k]?.elim 0 fun st => st.pc + 4 * w
  | .spot (.data i k) => (P.stubs i)[k]?.elim 0 fun st => st.pc + 4 * st.instructionCount
  | .spot (.lazy i k) => (P.stubs i)[k]?.elim 0 fun st => st.pointer mem
  | .spot (.slot _ addr) => addr
  | .heap n w => P.heap[n]?.elim 0 (· + 4 * w)

/-- The words of a stub. A stub of one instruction has no word after it. -/
def stubSpots (i : Nat) (st : Stub × Nat) : List Spot := (List.range st.1.instructionCount).map (.code i st.2 ·) ++
    if st.1.entrySize = 4 then [.lazy i st.2] else [.data i st.2, .lazy i st.2]

def spots : List Spot := (List.range P.bins.length).flatMap fun i =>
    (P.stubs i).zipIdx.flatMap (stubSpots i) ++ (P.slots i).map fun r => .slot i r.1

def places : List Place := P.spots.map .spot ++ (List.range P.heap.length).flatMap fun n => [.heap n 0, .heap n 1]

def StubsApart (bin bin' : MachO) : Prop := ∀ stubs ∈ bin.symbolStubs, ∀ stubs' ∈ bin'.symbolStubs,
    stubs.addr + stubs.size ≤ stubs'.addr ∨ stubs'.addr + stubs'.size ≤ stubs.addr

instance (bin bin' : MachO) : Decidable (StubsApart bin bin') :=
  inferInstanceAs (Decidable (∀ stubs ∈ bin.symbolStubs, ∀ stubs' ∈ bin'.symbolStubs, _))

end Image

/-- The words of the image do not overlap, and each stub has its pointer in memory. A relocation and a non-lazy pointer may
    share a slot if they have the same symbol and the relocation has no offset. -/
structure Layout (P : Image F C) (mem : Nat → UInt8) : Prop where
  apart : ∀ x ∈ P.places, ∀ y ∈ P.places, x ≠ y →
    P.address mem x + 4 ≤ P.address mem y ∨ P.address mem y + 4 ≤ P.address mem x
  bounded : ∀ x ∈ P.places, P.address mem x + 4 ≤ 2 ^ 32
  sections : P.bins.Pairwise Image.StubsApart
  offsets : ∀ i < P.bins.length, ∀ st ∈ P.stubs i, st.entrySize = 4 → st.picOffset < 2 ^ 12
  relocations : ∀ i < P.bins.length, ((P.relocations i).map Prod.fst).Nodup
  symbols : ∀ i < P.bins.length, ∀ r ∈ P.slots i, ∀ r' ∈ P.slots i, r.1 = r'.1 → r.2 = r'.2
  shared : ∀ i < P.bins.length, ∀ r ∈ P.relocations i, ∀ r' ∈ P.pointers i, r.1 = r'.1 → readLe mem r.1 4 = 0
  exported : ∀ bin ∈ P.bins, ∀ e ∈ bin.exportedSymbols, e.2 < 2 ^ 32

namespace Linker

/-- Jumping to a pointer invokes the implementation: the function itself, or an SVC dispatched to the host function. -/
def Invokes (s : Linker F C) (p : Nat) : Impl F → Prop
  | .host f => s.read p / 2 ^ 24 = 0xef ∧ s.getSvcHandler P p (s.read p % 2 ^ 24) = .ok (some f, s)
  | .guest addr => p = addr

def Target.Invokes (P : Image F C) (s : Linker F C) (impl : Impl F) : Target F → Prop
  | .host f => impl = .host f
  | .pointer p => Linker.Invokes P s p impl

/-- The calls for which one symbol has one implementation: each binary is linked once, no function that it refers to without
    a stub is provided twice, only stubs of linked binaries are called, addresses are only asked for if not just a binary
    has the function, and the numbers of SVCs do not reach the flag of the lazy linker. -/
def Careful (P : Image F C) (s : Linker F C) : Call F C → Prop
  | .linkBinary i => i ∉ s.linkedBins ∧
      (∀ r ∈ P.relocations i, IsObjc r.2 ∨ ¬P.Doubled r.2) ∧ (∀ r ∈ P.pointers i, ¬P.Doubled r.2) ∧
      s.linkedHostFunctions.length + (P.slots i).length + svcLinkedFunctionsBase ≤ svcLazyLinkRetFlag
  | .doLateLinking _ => True
  | .callStub pc => (∃ i ∈ s.linkedBins, ∃ st ∈ P.stubs i, st.pc = pc) ∧
      s.linkedHostFunctions.length + svcLinkedFunctionsBase < svcLazyLinkRetFlag
  | .createProcAddress symbol => ((P.hostFunction symbol).isSome ∨ P.exported symbol = none) ∧
      s.linkedHostFunctions.length + svcLinkedFunctionsBase < svcLazyLinkRetFlag
  | .createGuestFunction _ _ => s.linkedHostFunctions.length + svcLinkedFunctionsBase < svcLazyLinkRetFlag

instance (P : Image F C) (s : Linker F C) (c : Call F C) : Decidable (Careful P s c) :=
  match c with
  | .linkBinary _ => inferInstanceAs (Decidable (_ ∧ _ ∧ _ ∧ _))
  | .doLateLinking _ => inferInstanceAs (Decidable True)
  | .callStub _ => inferInstanceAs (Decidable ((∃ i ∈ s.linkedBins, ∃ st ∈ P.stubs i, _) ∧ _))
  | .createProcAddress _ => inferInstanceAs (Decidable ((_ ∨ _) ∧ _))
  | .createGuestFunction _ _ => inferInstanceAs (Decidable (_ < _))

/-- Every reference of the binaries that have been linked to a symbol that has an implementation invokes that one, where
    `mem` has been loaded, and every SVC number that has been written is dispatched to its function. -/
structure Resolved (P : Image F C) (mem : Nat → UInt8) (s : Linker F C) : Prop where
  relocations : ∀ i ∈ s.linkedBins, ∀ r ∈ P.relocations i, ¬IsObjc r.2 → ∀ impl, P.implementation r.2 = some impl →
    ∃ p, Invokes P s p impl ∧ s.read r.1 = wrap (p + readLe mem r.1 4)
  pointers : ∀ i ∈ s.linkedBins, ∀ r ∈ P.pointers i, ∀ impl, P.implementation r.2 = some impl →
    Invokes P s (s.read r.1) impl
  stubs : ∀ i ∈ s.linkedBins, ∀ st ∈ P.stubs i, ∀ symbol impl, st.symbol = some symbol →
    P.implementation symbol = some impl → s.linkedHostFunctions.length + svcLinkedFunctionsBase < svcLazyLinkRetFlag →
    ∃ target t, s.callStub P st.pc = .ok (target, t) ∧ target.Invokes P t impl
  procAddress : ∀ symbol impl, P.implementation symbol = some impl → Careful P s (.createProcAddress symbol) →
    s.allocated < P.heap.length → ∃ p t, s.createProcAddress P symbol = .ok (some p, t) ∧ Invokes P t p impl
  svcs : ∀ e ∈ s.svcs, ∀ pc, s.getSvcHandler P pc e.1 = .ok (some e.2, s)

end Linker
end TouchHLE.Dyld
