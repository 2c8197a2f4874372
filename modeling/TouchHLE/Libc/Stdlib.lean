import TouchHLE.Lib.Numeral
import TouchHLE.Lib.Reader
import TouchHLE.Libc.PosixIo

/-! Conversions of strings to integers: `touchHLE/src/libc/stdlib.rs`.

    The functions that are generic in where characters come from take a reader of some state. The variables that the
    closure in `str_to_int_inner_generic` changes are a structure, and its parts say whether it goes on. A string ends in
    the guest memory, so lengths and indices do not wrap. Loops are bounded by fuel. -/

namespace TouchHLE.Libc.Stdlib
open Lib Numeral

inductive Panic where
  | libc (panic : Libc.Panic)
  | tryInto | isDigitRadix | assertion | unwrap | unimplemented | fuel
deriving DecidableEq

def ofLibc {α : Type} : Except Libc.Panic α → Except Panic α
  | .ok value => .ok value
  | .error panic => .error (.libc panic)

variable {σ : Type}

/-- A string or a stream, with its `getc_fn` and `ungetc_fn`. -/
abbrev Subject (σ : Type) := Reader UInt8 σ Panic

def isWhitespace (c : UInt8) : Bool := c ∈ [9, 10, 12, 13, 32] || c == 11

def countWhitespace (r : Subject σ) (offset : Nat) : Nat → Nat → σ → Except Panic (Except Nat Nat × σ)
  | 0, _, _ => .error .fuel
  | fuel + 1, count, s => do
    match ← r.getc count s with
    | (none, s) => .ok (.error (count - offset), s)
    | (some c, s) =>
      if isWhitespace c then countWhitespace r offset fuel (count + 1) s
      else
        let s ← r.ungetc c s
        .ok (.ok (count - offset), s)

def countWhitespaceGeneric (r : Subject σ) (fuel offset : Nat) (s : σ) : Except Panic (Except Nat Nat × σ) :=
  countWhitespace r offset fuel offset s

/-! ### Scanning a number -/

structure Scan where
  whitespaceLen : Nat
  len : Nat
  sign : Option UInt8
  prefixLength : Nat
  chars : List UInt8
  base : Nat
deriving DecidableEq

namespace Scan

def charIsDigit (base : Nat) (c : UInt8) : Except Panic Bool :=
  if 36 < base then .error .isDigitRadix else .ok (isDigit base c)

variable (r : Subject σ) (offset maxLength : Nat)

def whitespace (fuel offset : Nat) (p : Scan) (s : σ) : Except Panic (Bool × Scan × σ) := do
  match ← countWhitespaceGeneric r fuel offset s with
  | (.ok count, s) => .ok (true, { p with whitespaceLen := count }, s)
  | (.error count, s) => .ok (false, { p with whitespaceLen := count }, s)

def index (offset : Nat) (p : Scan) : Nat := offset + p.whitespaceLen + p.len

def maybeSign (p : Scan) (s : σ) : Except Panic (Bool × Scan × σ) := do
  match ← r.getc (p.index offset) s with
  | (none, s) => .ok (false, p, s)
  | (some c, s) =>
    if c = 43 ∨ c = 45 then
      .ok (p.len + 1 ≠ maxLength, { p with sign := some c, prefixLength := p.prefixLength + 1, len := p.len + 1 }, s)
    else
      let s ← r.ungetc c s
      .ok (true, p, s)

def detectBase (offset : Nat) (p : Scan) (s : σ) : Except Panic (Bool × Scan × σ) := do
  if p.base ≠ 0 then .ok (true, p, s)
  else
    match ← r.getc (p.index offset) s with
    | (none, s) => .ok (false, p, s)
    | (some curr, s) =>
      if curr = 48 then
        match ← r.getc (p.index offset + 1) s with
        | (none, s) => .ok (false, p, s)
        | (some next, s) =>
          let s ← r.ungetc next s
          let s ← r.ungetc curr s
          .ok (true, { p with base := if next = 120 ∨ next = 88 then 16 else 8 }, s)
      else
        let s ← r.ungetc curr s
        .ok (true, { p with base := 10 }, s)

def skipX (p : Scan) (s : σ) : Except Panic (Bool × Scan × σ) := do
  match ← r.getc (p.index offset) s with
  | (none, s) => .ok (false, p, s)
  | (some next, s) =>
    if next = 120 ∨ next = 88 then
      if p.len + 1 = maxLength then .ok (false, { p with len := p.len + 1 }, s)
      else .ok (true, { p with len := p.len + 1, prefixLength := p.prefixLength + 1 }, s)
    else
      let s ← r.ungetc next s
      .ok (true, p, s)

def skipPrefix (p : Scan) (s : σ) : Except Panic (Bool × Scan × σ) := do
  if ¬(p.base = 8 ∨ p.base = 16) then .ok (true, p, s)
  else
    match ← r.getc (p.index offset) s with
    | (none, s) => .ok (false, p, s)
    | (some curr, s) =>
      if curr = 48 then
        if p.len + 1 = maxLength then .ok (false, { p with len := p.len + 1 }, s)
        else if p.base = 16 then
          skipX r offset maxLength { p with len := p.len + 1, prefixLength := p.prefixLength + 1 } s
        else
          -- the zero has been counted all the same
          let s ← r.ungetc curr s
          .ok (true, { p with len := p.len + 1, prefixLength := p.prefixLength + 1 }, s)
      else
        let s ← r.ungetc curr s
        .ok (true, p, s)

def digits (r : Subject σ) (offset maxLength : Nat) : Nat → Scan → σ → Except Panic (Scan × σ)
  | 0, _, _ => .error .fuel
  | fuel + 1, p, s => do
    match ← r.getc (p.index offset) s with
    | (none, s) => .ok (p, s)
    | (some curr, s) =>
      if ← charIsDigit p.base curr then
        if p.len + 1 = maxLength then .ok ({ p with chars := p.chars ++ [curr], len := p.len + 1 }, s)
        else digits r offset maxLength fuel { p with chars := p.chars ++ [curr], len := p.len + 1 } s
      else
        let s ← r.ungetc curr s
        if p.chars.length ≠ p.len - p.prefixLength then .error .assertion else .ok (p, s)

def andThen (x : Except Panic (Bool × Scan × σ)) (next : Scan → σ → Except Panic (Scan × σ)) : Except Panic (Scan × σ) := do
  match ← x with
  | (true, p, s) => next p s
  | (false, p, s) => .ok (p, s)

def scan (fuel offset base maxLength : Nat) (s : σ) : Except Panic (Scan × σ) :=
  andThen (whitespace r fuel offset ⟨0, 0, none, 0, [], base⟩ s) fun p s =>
    andThen (maybeSign r offset maxLength p s) fun p s =>
      andThen (detectBase r offset p s) fun p s =>
        andThen (skipPrefix r offset maxLength p s) fun p s =>
          digits r offset maxLength fuel p s

end Scan

def strToIntInnerGeneric (r : Subject σ) (fuel offset base maxLength : Nat)
    (fromStrRadix : List UInt8 → Nat → Except Panic Int) (negation : Int → Except Panic Int) (s : σ) :
    Except Panic (Option (Int × Nat) × σ) := do
  let (p, s) ← Scan.scan r fuel offset base maxLength s
  if ¬(2 ≤ p.base ∧ p.base ≤ 36) then .error .assertion
  else if p.len - p.prefixLength > 0 then
    let res ← fromStrRadix p.chars p.base
    let res ← if p.sign = some 45 then negation res else .ok res
    .ok (some (res, p.whitespaceLen + p.len), s)
  -- the prefix of an invalid octal number is a valid number 0
  else if p.base = 8 ∧ p.prefixLength > 0 then .ok (some (0, p.whitespaceLen + p.prefixLength), s)
  else .ok (none, s)

/-- A character of a string: `env.mem.read(s + idx)`. Nothing is put back. -/
def cString (str : Nat) : Subject Env where
  getc := fun idx env => do
    if 2 ^ 32 ≤ str + idx then .error (.libc .pointerOverflow)
    else
      let byte ← ofLibc (env.memRead (str + idx) 1)
      .ok (some (.ofNat byte), env)
  ungetc := fun _ env => .ok env

def fromStrRadix (max : Nat) (chars : List UInt8) (base : Nat) : Option Int :=
  if chars = [] ∨ max < value base chars then none else some (value base chars)

def writeEndptr (endptr ptr : Nat) (env : Env) : Except Panic Env := do
  if endptr = 0 then .ok env
  else
    let mem ← ofLibc (ofMem (env.mem.copyFromSlice endptr 4 ((List.range 4).map fun i => .ofNat (ptr / 256 ^ i))))
    .ok { env with mem }

/-- What `strtol`, `strtoul`, `strtoll` and `strtoull` share: the greatest value of their type, and how they negate. -/
def strTo (max : Nat) (negation : Int → Int) (fuel : Nat) (env : Env) (str endptr base : Nat) :
    Except Panic (Int × Env) := do
  let env := env.setErrno 0
  let (res, env) ← strToIntInnerGeneric (cString str) fuel 0 base (2 ^ 32 - 1)
    (fun s base => .ok ((fromStrRadix max s base).getD max)) (fun num => .ok (negation num)) env
  match res with
  | some (res, len) =>
    if 2 ^ 32 ≤ str + len then .error (.libc .pointerOverflow)
    else
      let env ← writeEndptr endptr (str + len) env
      .ok (res, env)
  | none =>
    let env ← writeEndptr endptr str env
    .ok (0, env)

def wrappingNeg (bits : Nat) (num : Int) : Int := (-num) % 2 ^ bits

/-- `num.checked_mul(-1).unwrap_or(T::MIN)` and, of a signed type, `num.wrapping_neg()` -/
def negOrMin (bits : Nat) (num : Int) : Int := if num = -2 ^ (bits - 1) then -2 ^ (bits - 1) else -num

def baseOf (base : Int) : Except Panic Nat := if base < 0 then .error .tryInto else .ok base.toNat

variable (fuel : Nat) (env : Env)

def strtoul (str endptr : Nat) (base : Int) : Except Panic (Int × Env) := do
  strTo (2 ^ 32 - 1) (wrappingNeg 32) fuel env str endptr (← baseOf base)

def strtoull (str endptr : Nat) (base : Int) : Except Panic (Int × Env) := do
  strTo (2 ^ 64 - 1) (wrappingNeg 64) fuel env str endptr (← baseOf base)

def strtoll (str endptr : Nat) (base : Int) : Except Panic (Int × Env) := do
  strTo (2 ^ 63 - 1) (negOrMin 64) fuel env str endptr (← baseOf base)

def strtol (str endptr : Nat) (base : Int) : Except Panic (Int × Env) :=
  strTo (2 ^ 31 - 1) (negOrMin 32) fuel env str endptr (base % 2 ^ 32).toNat

/-- `strtol_inner(env, s, 10).unwrap_or((0, 0))`; `atol` is the same. -/
def atoi (s : Nat) : Except Panic (Int × Env) := do
  let (res, env) ← strToIntInnerGeneric (cString s) fuel 0 10 (2 ^ 32 - 1)
    (fun s base => .ok ((fromStrRadix (2 ^ 31 - 1) s base).getD (2 ^ 31 - 1))) (fun num => .ok (negOrMin 32 num))
    (env.setErrno 0)
  .ok ((res.getD (0, 0)).1, env)

end TouchHLE.Libc.Stdlib
