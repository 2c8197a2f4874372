import TouchHLE.Objc.Selectors

/-! The dynamic linker: `touchHLE/src/dyld.rs`, and what the code that it writes does (`touchHLE/src/environment.rs` for the
    SVC instructions).

    The addresses of trampolines are given, as is what classes and constants are linked to. Accesses are inside the address
    space. The CPU's cache, the log and the routines for returning to the host are not modelled. -/

namespace TouchHLE.Dyld
open Lib
open Mem (wrap)
open Environment (readLe)
open Objc.Selectors (writeLe)

abbrev Symbol := List Char

structure HostDylib (F C : Type) where
  constantExports : List (List (Symbol × C))
  functionExports : List (List (Symbol × F))

def searchLists {T : Type} (lists : List (List (Symbol × T))) (symbol : Symbol) : Option (Symbol × T) :=
  lists.flatten.find? fun e => e.1 == symbol

def searchHostDylibs {F C T : Type} (dylibs : List (HostDylib F C)) (getExports : HostDylib F C → List (List (Symbol × T)))
    (symbol : Symbol) : Option (Symbol × T) :=
  dylibs.findSome? fun dylib => searchLists (getExports dylib) symbol

structure DyldIndirectSymbolInfo where
  entrySize : Nat
  indirectUndefSymbols : List (Option Symbol)

structure Section where
  addr : Nat
  size : Nat
  dyldIndirectSymbolInfo : Option DyldIndirectSymbolInfo

structure MachO where
  symbolStubs : Option Section
  lazySymbolPointers : Option Section
  nonLazySymbolPointers : Option Section
  exportedSymbols : List (Symbol × Nat)
  externalRelocations : List (Nat × Symbol)

/-- What is linked: the libraries of the host and the loaded binaries. -/
structure Image (F C : Type) where
  dylibs : List (HostDylib F C)
  bins : List MachO
  /-- what `mem.alloc(8)` returns, one call after the other until memory is exhausted -/
  heap : List Nat
  linkClass : Symbol → Bool → Nat
  placeholder : C
  unimplemented : F

def Image.exported {F C : Type} (P : Image F C) (symbol : Symbol) : Option Nat :=
  P.bins.findSome? (·.exportedSymbols.lookup symbol)

def Image.hostFunction {F C : Type} (P : Image F C) (symbol : Symbol) : Option (Symbol × F) :=
  searchHostDylibs P.dylibs HostDylib.functionExports symbol

def Image.hostConstant {F C : Type} (P : Image F C) (symbol : Symbol) : Option (Symbol × C) :=
  searchHostDylibs P.dylibs HostDylib.constantExports symbol

inductive DyldPanic where
  | svcTooLarge | tryInto | unwrap | stubInstructions | unimplementedEntrySize | sectionSize | indexOutOfBounds
  | noStubs | notAtStub | divideByZero | notReturnInstruction | unreachable | unexpectedSvc | noReturn
  | undefinedInstruction | noBinary | outOfMemory
deriving DecidableEq

def svcLazyLink : Nat := 0
def svcThreadExit : Nat := 1
def svcReturnToHost : Nat := 2
def svcLinkedFunctionsBase : Nat := svcReturnToHost + 1
def svcLazyLinkRetFlag : Nat := 0x800000

def encodeA32Svc (imm : Nat) : Except DyldPanic Nat :=
  if imm &&& 0xff000000 ≠ 0 then .error .svcTooLarge else .ok (imm ||| 0xef000000)

def encodeA32Ret : Nat := 0xe12fff1e

def encodeA32Trap : Nat := 0xe7ffdefe

def symbolStub1Instructions : List Nat := [0xe59ff000]
def symbolStubInstructions : List Nat := [0xe59fc000, 0xe59cf000]
def picSymbolStubInstructions : List Nat := [0xe59fc004, 0xe08fc00c, 0xe59cf000]

/-- `Dyld`, and the guest memory. -/
structure Linker (F C : Type) where
  mem : Nat → UInt8
  linkedHostFunctions : List (Symbol × F)
  constantsToLinkLater : List (Nat × C)
  nonLazyHostFunctions : Symbol → Option Nat
  allocated : Nat
  /-- every SVC number that has been written, with the function that it was allocated for -/
  svcs : List (Nat × F)
  linkedBins : List Nat

namespace Linker
variable {F C : Type}

def new (mem : Nat → UInt8) : Linker F C := ⟨mem, [], [], fun _ => none, 0, [], []⟩

variable (P : Image F C) (self : Linker F C)

def read (ptr : Nat) : Nat := readLe self.mem ptr 4

def write (ptr value : Nat) : Linker F C := { self with mem := writeLe self.mem ptr 4 value }

def writeAll (self : Linker F C) (ptr : Nat) : List Nat → Linker F C
  | [] => self
  | instr :: rest => (self.write ptr instr).writeAll (ptr + 4) rest

def nextIdx : Except DyldPanic Nat :=
  if self.linkedHostFunctions.length < 2 ^ 32 then .ok self.linkedHostFunctions.length else .error .tryInto

def createGuestFunction (symbol : Symbol) (f : F) : Except DyldPanic (Nat × Linker F C) := do
  let idx ← self.nextIdx
  let svc := wrap (idx + svcLinkedFunctionsBase)
  match P.heap[self.allocated]? with
  | none => .error .outOfMemory
  | some functionPtr => do
    let instr ← encodeA32Svc svc
    let self := { self with
      linkedHostFunctions := self.linkedHostFunctions ++ [(symbol, f)]
      allocated := self.allocated + 1
      svcs := self.svcs ++ [(svc, f)] }
    .ok (functionPtr, (self.write functionPtr instr).write (functionPtr + 4) encodeA32Ret)

/-- `create_proc_address` without the cache: no address if no host library exports the symbol. -/
def createProcAddress (symbol : Symbol) : Except DyldPanic (Option Nat × Linker F C) :=
  match P.hostFunction symbol with
  | none => .ok (none, self)
  | some (symbol, f) =>
    match self.nonLazyHostFunctions symbol with
    | some cachedFn => .ok (some cachedFn, self)
    | none => do
      let created ← self.createGuestFunction P symbol f
      let self := created.2
      .ok (some created.1,
        { self with nonLazyHostFunctions := Function.update self.nonLazyHostFunctions symbol (some created.1) })

/-! ### Linking a binary -/

def setupStub (entrySize : Nat) (expectedInstructions : List Nat) (self : Linker F C) (ptr : Nat) :
    Except DyldPanic (Linker F C) :=
  if (expectedInstructions.zipIdx.all fun e => self.read (ptr + 4 * e.2) == e.1) = false then .error .stubInstructions
  else if entrySize = 4 then do
    let instr ← encodeA32Svc svcLazyLinkRetFlag
    .ok (self.write ptr instr)
  else do
    let instr ← encodeA32Svc svcLazyLink
    let self := (self.write ptr instr).write (ptr + 4) encodeA32Ret
    if entrySize = 16 then .ok (self.write (ptr + 8) encodeA32Trap) else .ok self

def expectedInstructions (entrySize : Nat) : Except DyldPanic (List Nat) :=
  if entrySize = 4 then .ok []
  else if entrySize = 12 then .ok symbolStubInstructions
  else if entrySize = 16 then .ok picSymbolStubInstructions
  else .error .unimplementedEntrySize

def setupLazyLinking (bin : MachO) : Except DyldPanic (Linker F C) :=
  match bin.symbolStubs with
  | none => .ok self
  | some stubs =>
    match stubs.dyldIndirectSymbolInfo with
    | none => .error .unwrap
    | some info => do
      let expectedInstructions ← expectedInstructions info.entrySize
      if stubs.size % info.entrySize ≠ 0 then .error .sectionSize
      else
        ((List.range (stubs.size / info.entrySize)).map fun i => stubs.addr + i * info.entrySize).foldlM
          (setupStub info.entrySize expectedInstructions) self

def objcClass : Symbol := ['_', 'O', 'B', 'J', 'C', '_', 'C', 'L', 'A', 'S', 'S', '_', '$', '_']

def objcMetaclass : Symbol := ['_', 'O', 'B', 'J', 'C', '_', 'M', 'E', 'T', 'A', 'C', 'L', 'A', 'S', 'S', '_', '$', '_']

def constantStringClass : Symbol :=
  ['_', '_', '_', 'C', 'F', 'C', 'o', 'n', 's', 't', 'a', 'n', 't', 'S', 't', 'r', 'i', 'n', 'g',
    'C', 'l', 'a', 's', 's', 'R', 'e', 'f', 'e', 'r', 'e', 'n', 'c', 'e']

/-- What an external relocation refers to. Constants are skipped, and what is missing is only logged. -/
def relocationTarget (name : Symbol) : Except DyldPanic (Option Nat × Linker F C) :=
  if objcClass.isPrefixOf name then .ok (some (P.linkClass (name.drop objcClass.length) false), self)
  else if objcMetaclass.isPrefixOf name then .ok (some (P.linkClass (name.drop objcMetaclass.length) true), self)
  else if name = constantStringClass then .ok (some 0, self)
  else
    match P.exported name with
    | some externalAddr => .ok (some externalAddr, self)
    | none =>
      match P.hostFunction name with
      | some (symbol, _) => do
        let created ← self.createProcAddress P symbol
        match created.1 with
        | none => .error .unwrap
        | some trampolinePtr => .ok (some trampolinePtr, created.2)
      | none => .ok (none, self)

def relocate (relocation : Nat × Symbol) : Except DyldPanic (Linker F C) := do
  let offset := self.read relocation.1
  let target ← self.relocationTarget P relocation.2
  match target.1 with
  | none => .ok target.2
  | some address => .ok (target.2.write relocation.1 (wrap (address + offset)))

def linkPointer (pointer : Nat × Symbol) : Except DyldPanic (Linker F C) :=
  match P.exported pointer.2 with
  | some addr => .ok (self.write pointer.1 addr)
  | none =>
    match P.hostFunction pointer.2 with
    | some (symbol, _) => do
      let created ← self.createProcAddress P symbol
      match created.1 with
      | none => .error .unwrap
      | some trampolinePtr => .ok (created.2.write pointer.1 trampolinePtr)
    | none =>
      match P.hostConstant pointer.2 with
      | some (_, template) => .ok { self with constantsToLinkLater := self.constantsToLinkLater ++ [(pointer.1, template)] }
      | none => .ok { self with constantsToLinkLater := self.constantsToLinkLater ++ [(pointer.1, P.placeholder)] }

def linkPointerAt (ptrs : Section) (info : DyldIndirectSymbolInfo) (self : Linker F C) (i : Nat) :
    Except DyldPanic (Linker F C) :=
  match info.indirectUndefSymbols[i]? with
  | none => .error .indexOutOfBounds
  | some none => .ok self
  | some (some symbol) => self.linkPointer P (ptrs.addr + i * info.entrySize, symbol)

def doNonLazyLinking (bin : MachO) : Except DyldPanic (Linker F C) := do
  let self ← bin.externalRelocations.foldlM (relocate P) self
  match bin.nonLazySymbolPointers with
  | none => .ok self
  | some ptrs =>
    match ptrs.dyldIndirectSymbolInfo with
    | none => .error .unwrap
    | some info =>
      if info.entrySize ≠ 4 ∨ ptrs.size % info.entrySize ≠ 0 then .error .sectionSize
      else (List.range (ptrs.size / info.entrySize)).foldlM (linkPointerAt P ptrs info) self

def linkBinary (i : Nat) : Except DyldPanic (Linker F C) :=
  match P.bins[i]? with
  | none => .error .noBinary
  | some bin => do
    let self ← self.setupLazyLinking bin
    let self ← self.doNonLazyLinking P bin
    .ok { self with linkedBins := self.linkedBins ++ [i] }

/-- Each constant is given the pointer that is made from its template. -/
def doLateLinking (symbolPtr : Nat × C → Nat) : Linker F C :=
  self.constantsToLinkLater.foldl (fun self toLink => self.write toLink.1 (symbolPtr toLink))
    { self with constantsToLinkLater := [] }

/-! ### Lazy linking -/

/-- `___cxa_pure_virtual`, `__ZSt9terminatev`, `_abort_report_np`, `___cxa_call_unexpected` -/
def noreturnFuncs : List Symbol :=
  [['_', '_', '_', 'c', 'x', 'a', '_', 'p', 'u', 'r', 'e', '_', 'v', 'i', 'r', 't', 'u', 'a', 'l'],
    ['_', '_', 'Z', 'S', 't', '9', 't', 'e', 'r', 'm', 'i', 'n', 'a', 't', 'e', 'v'],
    ['_', 'a', 'b', 'o', 'r', 't', '_', 'r', 'e', 'p', 'o', 'r', 't', '_', 'n', 'p'],
    ['_', '_', '_', 'c', 'x', 'a', '_', 'c', 'a', 'l', 'l', '_', 'u', 'n', 'e', 'x', 'p', 'e', 'c', 't', 'e', 'd']]

def unimplementedFunction : Symbol :=
  ['_', 't', 'o', 'u', 'c', 'h', 'H', 'L', 'E', '_', 'u', 'n', 'i', 'm', 'p', 'l', 'e', 'm', 'e', 'n', 't', 'e', 'd',
    '_', 'f', 'u', 'n', 'c', 't', 'i', 'o', 'n']

def originalInstructions (entrySize : Nat) : Except DyldPanic (List Nat) :=
  if entrySize = 4 then .ok symbolStub1Instructions
  else if entrySize = 12 then .ok symbolStubInstructions
  else if entrySize = 16 then .ok picSymbolStubInstructions
  else .error .unreachable

def linkByRestoringStub (linkedFunction svcPc entrySize picOffset : Nat) : Except DyldPanic (Linker F C) := do
  let originalInstructions ← originalInstructions entrySize
  let instructionCount := originalInstructions.length
  let self :=
    if entrySize = 4 then self.write svcPc (originalInstructions.headD 0 ||| picOffset)
    else self.writeAll svcPc originalInstructions
  let laSymbolPtr :=
    if entrySize = 12 then self.read (svcPc + 4 * instructionCount)
    else if entrySize = 4 then wrap (svcPc + (self.read svcPc &&& 0xFFF) + 8)
    else wrap (svcPc + self.read (svcPc + 4 * instructionCount) + 12)
  .ok (self.write laSymbolPtr linkedFunction)

def linkToHost (symbol : Symbol) (f : F) (svcPc entrySize : Nat) : Except DyldPanic (Option F × Linker F C) := do
  let idx ← self.nextIdx
  let svc := wrap (idx + svcLinkedFunctionsBase)
  if entrySize = 4 ∧ ¬svc < svcLazyLinkRetFlag then .error .svcTooLarge
  else
    let svc := if entrySize = 4 then svc ||| svcLazyLinkRetFlag else svc
    let instr ← encodeA32Svc svc
    let self := { self with
      linkedHostFunctions := self.linkedHostFunctions ++ [(symbol, f)], svcs := self.svcs ++ [(svc, f)] }
    let self := self.write svcPc instr
    if entrySize ≠ 4 ∧ self.read (svcPc + 4) ≠ encodeA32Ret then .error .notReturnInstruction
    else .ok (some f, self)

def picOffset (bin : MachO) (stubs : Section) : Nat :=
  bin.lazySymbolPointers.elim 0 fun lazyPtrs => wrap (lazyPtrs.addr + 2 ^ 32 - stubs.addr)

def stubsAt (svcPc : Nat) (bin : MachO) : Option (Section × Nat) :=
  match bin.symbolStubs with
  | none => none
  | some stubs =>
    if stubs.addr ≤ svcPc ∧ svcPc < stubs.addr + stubs.size then
      some (stubs, picOffset bin stubs)
    else none

def linkSymbol (symbol : Symbol) (svcPc entrySize picOffset : Nat) : Except DyldPanic (Option F × Linker F C) :=
  match self.nonLazyHostFunctions symbol with
  | some addr => do
    let self ← self.linkByRestoringStub addr svcPc entrySize picOffset
    .ok (none, self)
  | none =>
    match P.hostFunction symbol with
    | some (symbol, f) => self.linkToHost symbol f svcPc entrySize
    | none =>
      match P.exported symbol with
      | some addr => do
        let self ← self.linkByRestoringStub addr svcPc entrySize picOffset
        .ok (none, self)
      | none =>
        if symbol ∈ noreturnFuncs then .error .noReturn
        else self.linkToHost unimplementedFunction P.unimplemented svcPc entrySize

def doLazyLink (svcPc : Nat) : Except DyldPanic (Option F × Linker F C) :=
  match P.bins.findSome? (stubsAt svcPc) with
  | none => .error .noStubs
  | some (stubs, picOffset) =>
    match stubs.dyldIndirectSymbolInfo with
    | none => .error .unwrap
    | some info =>
      let offset := svcPc - stubs.addr
      if info.entrySize = 0 then .error .divideByZero
      else if offset % info.entrySize ≠ 0 then .error .notAtStub
      else
        match info.indirectUndefSymbols[offset / info.entrySize]? with
        | none => .error .indexOutOfBounds
        | some none => .error .unwrap
        | some (some symbol) => self.linkSymbol P symbol svcPc info.entrySize picOffset

def getSvcHandler (svcPc svc : Nat) : Except DyldPanic (Option F × Linker F C) :=
  if svc = svcLazyLink ∨ svc = svcLazyLinkRetFlag then self.doLazyLink P svcPc
  else if svc = svcThreadExit ∨ svc = svcReturnToHost then .error .unreachable
  else
    match self.linkedHostFunctions[wrap ((svc &&& (2 ^ 32 - 1 - svcLazyLinkRetFlag)) + 2 ^ 32 - svcLinkedFunctionsBase)]? with
    | none => .error .unexpectedSvc
    | some (_, f) => .ok (some f, self)

inductive Target (F : Type) where
  | host (f : F)
  | pointer (p : Nat)
deriving DecidableEq

def jump (pc : Nat) : Except DyldPanic Nat :=
  if self.read pc = 0xe59fc000 ∧ self.read (pc + 4) = 0xe59cf000 then
    -- `ldr ip, [pc]`, `ldr pc, [ip]`
    .ok (self.read (self.read (pc + 8)))
  else if self.read pc = 0xe59fc004 ∧ self.read (pc + 4) = 0xe08fc00c ∧ self.read (pc + 8) = 0xe59cf000 then
    -- `ldr ip, [pc, #4]`, `add ip, pc, ip`, `ldr pc, [ip]`
    .ok (self.read (wrap (pc + 12 + self.read (pc + 12))))
  else if self.read pc / 2 ^ 12 = 0xe59ff then
    -- `ldr pc, [pc, #imm]`
    .ok (self.read (wrap (pc + 8 + self.read pc % 2 ^ 12)))
  else .error .undefinedInstruction

/-- The handler of an SVC is called, or the execution resumes at the instruction, which is no longer an SVC. -/
def resume (pc : Nat) (handled : Option F × Linker F C) : Except DyldPanic (Target F × Linker F C) :=
  match handled.1 with
  | some f => .ok (.host f, handled.2)
  | none => do
    let p ← handled.2.jump pc
    .ok (.pointer p, handled.2)

def callStub (P : Image F C) (self : Linker F C) (pc : Nat) : Except DyldPanic (Target F × Linker F C) :=
  if self.read pc / 2 ^ 24 = 0xef then do
    let handled ← self.getSvcHandler P pc (self.read pc % 2 ^ 24)
    resume pc handled
  else do
    let p ← self.jump pc
    .ok (.pointer p, self)

inductive Call (F C : Type) where
  | linkBinary (i : Nat)
  | doLateLinking (symbolPtr : Nat × C → Nat)
  | callStub (pc : Nat)
  | createProcAddress (symbol : Symbol)
  | createGuestFunction (symbol : Symbol) (f : F)

inductive Result (F : Type) where
  | linked
  | called (target : Target F)
  | procAddress (address : Option Nat)
  | guestFunction (address : Nat)

def call : Call F C → Except DyldPanic (Result F × Linker F C)
  | .linkBinary i => do
    let self ← self.linkBinary P i
    .ok (.linked, self)
  | .doLateLinking symbolPtr => .ok (.linked, self.doLateLinking symbolPtr)
  | .callStub pc => do
    let called ← self.callStub P pc
    .ok (.called called.1, called.2)
  | .createProcAddress symbol => do
    let created ← self.createProcAddress P symbol
    .ok (.procAddress created.1, created.2)
  | .createGuestFunction symbol f => do
    let created ← self.createGuestFunction P symbol f
    .ok (.guestFunction created.1, created.2)

end Linker
end TouchHLE.Dyld
