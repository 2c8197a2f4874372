import TouchHLE.Environment.State

/-! Calling conventions: `touchHLE/src/abi.rs`.

    Integers are bit vectors and floating-point values their bit patterns. `-=` and `+=` on a `u32` wrap, the arithmetic of
    pointers is checked. The addresses of the words that are written are kept in a list. -/

namespace TouchHLE.Abi

abbrev Word := BitVec 32

def wordAt (mem : Nat → UInt8) (ptr : Nat) : Word := .ofNat 32 (Environment.readLe mem ptr 4)

def writeStruct (mem : Nat → UInt8) (ptr : Nat) (words : List Word) : Nat → UInt8 := fun x =>
  if ptr ≤ x ∧ x < ptr + 4 * words.length then .ofNat ((words.getD ((x - ptr) / 4) 0).toNat / 256 ^ ((x - ptr) % 4)) else mem x

theorem wordAt_struct {mem mem' : Nat → UInt8} {ptr i : Nat} {words : List Word} (hi : i < words.length)
    (hmem : ∀ x, ptr ≤ x → x < ptr + 4 * words.length → mem' x = writeStruct mem ptr words x) :
    wordAt mem' (ptr + 4 * i) = words.getD i 0 := by
  have hwre := Environment.readLe_written mem' (ptr + 4 * i) 4 (words.getD i 0).toNat 4 0 (Nat.le_refl _)
  have hcng : Environment.readLe mem' (ptr + 4 * i) 4 = Environment.readLe (fun x => if ptr + 4 * i ≤ x ∧
      x < ptr + 4 * i + 4 then .ofNat ((words.getD i 0).toNat / 256 ^ (x - (ptr + 4 * i))) else mem' x) (ptr + 4 * i) 4 :=
    Environment.readLe_congr 4 (ptr + 4 * i) fun x h₁ h₂ => by
      rw [hmem x (by omega) (by omega), writeStruct, if_pos (by omega), if_pos (by omega), show (x - ptr) / 4 = i by omega,
        show (x - ptr) % 4 = x - (ptr + 4 * i) by omega]
  rw [wordAt, hcng.trans hwre, Nat.pow_zero, Nat.div_one, Nat.mod_eq_of_lt (show _ < 256 ^ 4 from (words.getD i 0).isLt)]
  exact BitVec.ofNat_toNat ..

inductive Panic where
  | sliceRange | pointerOverflow | fakeRegs
deriving DecidableEq

def SP : Nat := 13

structure Machine where
  regs : Nat → Word
  mem : Nat → UInt8
  writes : List Nat

namespace Machine

variable (self : Machine)

def setReg (reg : Nat) (value : Word) : Machine := { self with regs := Function.update self.regs reg value }

@[simp] theorem setReg_self (reg : Nat) (value : Word) : (self.setReg reg value).regs reg = value := Function.update_self ..

@[simp] theorem setReg_of_ne {reg reg' : Nat} (value : Word) (h : reg' ≠ reg) :
    (self.setReg reg value).regs reg' = self.regs reg' :=
  Function.update_of_ne h ..

def sp : Nat := (self.regs SP).toNat

def read (ptr : Nat) : Except Panic Word :=
  if ptr + 4 ≤ 2 ^ 32 then .ok (.ofNat 32 (Environment.readLe self.mem ptr 4)) else .error .sliceRange

def write (ptr : Nat) (value : Word) : Except Panic Machine :=
  if ptr + 4 ≤ 2 ^ 32 then
    .ok { self with
      mem := fun x => if ptr ≤ x ∧ x < ptr + 4 then .ofNat (value.toNat / 256 ^ (x - ptr)) else self.mem x
      writes := self.writes ++ [ptr] }
  else .error .sliceRange

end Machine

def ptrAdd (ptr count : Nat) : Except Panic Nat :=
  if ptr + 4 * count < 2 ^ 32 then .ok (ptr + 4 * count) else .error .pointerOverflow

/-- Calling convention translation for a function argument type. -/
structure GuestArg (α : Type) where
  regCount : Nat
  fromRegs : List Word → α
  toRegs : α → List Word

/-- `impl_GuestArg_with!`: the conversions to and from another type are those of `as`. -/
def GuestArg.implWith {α β : Type} (arg : GuestArg α) (ofWith : α → β) (toWith : β → α) : GuestArg β where
  regCount := arg.regCount
  fromRegs := fun regs => ofWith (arg.fromRegs regs)
  toRegs := fun value => arg.toRegs (toWith value)

def u32Arg : GuestArg (BitVec 32) := ⟨1, fun regs => regs.getD 0 0, fun value => [value]⟩

def u64Arg : GuestArg (BitVec 64) where
  regCount := 2
  fromRegs := fun regs => regs.getD 1 0 ++ regs.getD 0 0
  toRegs := fun value => [value.extractLsb' 0 32, value.extractLsb' 32 32]

/-- The types that implement `GuestArg`, without `VaList`: its `to_regs` is still to be done. -/
inductive ArgType where
  | u32 | i32 | u16 | i16 | u8 | i8 | bool | f32 | ptr | guestFunction
  | u64 | i64 | f64
deriving DecidableEq

namespace ArgType

def Value : ArgType → Type
  | u32 | i32 | f32 | ptr | guestFunction => BitVec 32
  | u16 | i16 => BitVec 16
  | u8 | i8 => BitVec 8
  | bool => Bool
  | u64 | i64 | f64 => BitVec 64

def guestArg : (t : ArgType) → GuestArg t.Value
  | u32 => u32Arg
  | i32 => u32Arg.implWith id id
  | u16 => u32Arg.implWith (.setWidth 16) (.setWidth 32)
  | i16 => u32Arg.implWith (.setWidth 16) (.signExtend 32)
  | u8 => u32Arg.implWith (.setWidth 8) (.setWidth 32)
  | i8 => u32Arg.implWith (.setWidth 8) (.signExtend 32)
  | bool => u32Arg.implWith (fun word => word != 0) (fun b => bif b then 1 else 0)
  | f32 => u32Arg
  | ptr => u32Arg
  | guestFunction => u32Arg
  | u64 => u64Arg
  | i64 => u64Arg.implWith id id
  | f64 => u64Arg

def regCount (t : ArgType) : Nat := t.guestArg.regCount

end ArgType

structure Arg where
  type : ArgType
  value : type.Value

/-- One word of an argument: after the fourth register is used, the arguments are on the stack. -/
def readWord (self : Machine) (stackPtr regOffset : Nat) : Except Panic Word :=
  if regOffset < 4 then .ok (self.regs regOffset)
  else do
    let ptr ← ptrAdd stackPtr (regOffset - 4)
    self.read ptr

def readWords (self : Machine) (stackPtr : Nat) : Nat → Nat → Except Panic (List Word × Nat)
  | 0, regOffset => .ok ([], regOffset)
  | count + 1, regOffset => do
    let word ← readWord self stackPtr regOffset
    let (words, regOffset) ← readWords self stackPtr count (regOffset + 1)
    .ok (word :: words, regOffset)

def readNextArg (t : ArgType) (self : Machine) (stackPtr regOffset : Nat) : Except Panic (t.Value × Nat) := do
  if 16 < t.regCount then .error .fakeRegs
  else
    let (fakeRegs, regOffset) ← readWords self stackPtr t.regCount regOffset
    .ok (t.guestArg.fromRegs fakeRegs, regOffset)

def extendStackForArgs (regCountSum : Nat) (self : Machine) : Except Panic (Word × Machine) :=
  if regCountSum > 4 then
    if 4 * (regCountSum - 4) ≤ self.sp then
      .ok (self.regs SP, self.setReg SP (.ofNat 32 (self.sp - 4 * (regCountSum - 4))))
    else .error .pointerOverflow
  else .ok (self.regs SP, self)

def writeWord (self : Machine) (regOffset : Nat) (word : Word) : Except Panic Machine :=
  if regOffset < 4 then .ok (self.setReg regOffset word)
  else do
    let ptr ← ptrAdd self.sp (regOffset - 4)
    self.write ptr word

def writeWords : List Word → Nat → Machine → Except Panic (Nat × Machine)
  | [], regOffset, self => .ok (regOffset, self)
  | word :: words, regOffset, self => do
    let self ← writeWord self regOffset word
    writeWords words (regOffset + 1) self

def writeNextArg (arg : Arg) (regOffset : Nat) (self : Machine) : Except Panic (Nat × Machine) :=
  if 16 < arg.type.regCount then .error .fakeRegs
  else writeWords (arg.type.guestArg.toRegs arg.value) regOffset self

def writeArgs : List Arg → Nat → Machine → Except Panic (Nat × Machine)
  | [], regOffset, self => .ok (regOffset, self)
  | arg :: args, regOffset, self => do
    let (regOffset, self) ← writeNextArg arg regOffset self
    writeArgs args regOffset self

def readArgs (self : Machine) (stackPtr : Nat) : List ArgType → Nat → Except Panic (List Arg × Nat)
  | [], regOffset => .ok ([], regOffset)
  | t :: types, regOffset => do
    let (value, regOffset) ← readNextArg t self stackPtr regOffset
    let (args, regOffset) ← readArgs self stackPtr types regOffset
    .ok (⟨t, value⟩ :: args, regOffset)

def regCountSum (args : List Arg) : Nat := (args.map fun arg => arg.type.regCount).sum

structure VaList where
  regOffset : Nat
  stackPointer : Nat

def VaList.next (va : VaList) (t : ArgType) (self : Machine) : Except Panic (t.Value × VaList) := do
  let (value, regOffset) ← readNextArg t self va.stackPointer va.regOffset
  .ok (value, { va with regOffset })

def VaList.nexts (self : Machine) : List ArgType → VaList → Except Panic (List Arg × VaList)
  | [], va => .ok ([], va)
  | t :: types, va => do
    let (value, va) ← va.next t self
    let (args, va) ← nexts self types va
    .ok (⟨t, value⟩ :: args, va)

/-- What `call_from_guest` reads for these argument types and a `DotDotDot`; with `ret` the value is returned in memory, and
    a pointer to it comes first. -/
def readCall (ret : Bool) (types : List ArgType) (self : Machine) : Except Panic (Option Word × List Arg × VaList) := do
  if ret then
    let (retvalPtr, regOffset) ← readNextArg .ptr self self.sp 0
    let (args, regOffset) ← readArgs self self.sp types regOffset
    .ok (some retvalPtr, args, ⟨regOffset, self.sp⟩)
  else
    let (args, regOffset) ← readArgs self self.sp types 0
    .ok (none, args, ⟨regOffset, self.sp⟩)

structure Frame where
  machine : Machine
  oldSp : Word
  retvalPtr : Option Word

/-- The first half of `call_from_host` for host functions, with the size of a value that is returned in memory. -/
def setUpCall (sizeInMem : Option Word) (args : List Arg) (self : Machine) : Except Panic Frame := do
  match sizeInMem with
  | some size =>
    let ptr := self.regs SP - size
    let (regOffset, self) ← writeNextArg ⟨.ptr, ptr⟩ 0 (self.setReg SP ptr)
    let (oldSp, self) ← extendStackForArgs (regCountSum args) self
    let (_, self) ← writeArgs args regOffset self
    .ok ⟨self, oldSp, some ptr⟩
  | none =>
    let (oldSp, self) ← extendStackForArgs (regCountSum args) self
    let (_, self) ← writeArgs args 0 self
    .ok ⟨self, oldSp, none⟩

/-- `call_from_host` for host functions, up to the return value. -/
def callFromHost (sizeInMem : Option Word) (callFromGuest : Machine → Except Panic Machine) (args : List Arg)
    (self : Machine) : Except Panic Machine := do
  let frame ← setUpCall sizeInMem args self
  let self ← callFromGuest frame.machine
  match sizeInMem with
  | some size => .ok (self.setReg SP (frame.oldSp + size))
  | none => .ok (self.setReg SP frame.oldSp)

end TouchHLE.Abi
