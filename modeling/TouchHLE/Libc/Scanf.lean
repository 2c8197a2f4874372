import TouchHLE.Libc.Stdio
import TouchHLE.Libc.Stdlib

/-! Formatted input: the `scanf` functions of `touchHLE/src/libc/stdio/printf.rs`.

    The format is a list of bytes without its terminator, the variable arguments are pointers that are counted from zero,
    and what is stored is kept in a list, as if nothing overlapped with it. `%f` and `%g` are left out. -/

namespace TouchHLE.Libc.Scanf
open Lib Stdlib

variable {σ : Type}

structure Store where
  ptr : Nat
  size : Nat
  value : Nat
deriving DecidableEq

structure Progress where
  srcCharIdx : Nat
  matchedArgs : Int
  argIdx : Nat
  stores : List Store
deriving DecidableEq

namespace Progress

def start : Progress := ⟨0, 0, 0, []⟩

/-- `env.mem.write(ptr, value as T)` for an integer type of `size` bytes -/
def write (self : Progress) (ptr size : Nat) (value : Int) : Except Stdlib.Panic Progress :=
  if ptr + size ≤ 2 ^ 32 then
    .ok { self with stores := self.stores ++ [⟨ptr, size, (value % 2 ^ (8 * size)).toNat⟩] }
  else .error (.libc .sliceRange)

def advance (self : Progress) (n : Nat) : Progress := { self with srcCharIdx := self.srcCharIdx + n }

def nextArg (self : Progress) : Progress := { self with argIdx := self.argIdx + 1 }

def addMatched (self : Progress) (n : Int) : Progress := { self with matchedArgs := self.matchedArgs + n }

end Progress

def incrPtr (ptr : Nat) : Except Stdlib.Panic Nat :=
  if ptr + 1 < 2 ^ 32 then .ok (ptr + 1) else .error (.libc .pointerOverflow)

def spaces (r : Subject σ) : Nat → Progress → σ → Except Stdlib.Panic (Bool × Progress × σ)
  | 0, _, _ => .error .fuel
  | fuel + 1, o, s => do
    match ← r.getc o.srcCharIdx s with
    | (none, s) => .ok (false, o, s)
    | (some cc, s) =>
      if isWhitespace cc then spaces r fuel (o.advance 1) s
      else
        let s ← r.ungetc cc s
        .ok (true, o, s)

variable (r : Subject σ) (fuel : Nat)

/-- A character of the format that is not a `%`. With `true` the loop goes on. -/
def ordinary (c : UInt8) (o : Progress) (s : σ) : Except Stdlib.Panic (Bool × Progress × σ) := do
  if isWhitespace c then
    match ← spaces r fuel o s with
    | (false, _, _) => .error .unwrap
    | (true, o, s) => .ok (true, o, s)
  else
    match ← r.getc o.srcCharIdx s with
    | (none, _) => .error .unwrap
    | (some cc, s) => if c ≠ cc then .ok (false, o, s) else .ok (true, o.advance 1, s)

inductive LengthModifier where
  | hh | h | ll | l
deriving DecidableEq

def maxWidth : List UInt8 → Nat → Nat × List UInt8
  | [], width => (width, [])
  | c :: format, width =>
    if 48 ≤ c ∧ c ≤ 57 then maxWidth format ((width * 10 + (c.toNat - 48)) % 2 ^ 32) else (width, c :: format)

def lengthModifier (format : List UInt8) : Option LengthModifier × List UInt8 :=
  if format.head? = some 104 then
    if format.tail.head? = some 104 then (some .hh, format.tail.tail) else (some .h, format.tail)
  else if format.head? = some 108 then
    if format.tail.head? = some 108 then (some .ll, format.tail.tail) else (some .l, format.tail)
  else if format.head? = some 113 then (some .ll, format.tail)
  else (none, format)

def LengthModifier.size : Option LengthModifier → Except Stdlib.Panic Nat
  | some .hh => .ok 1
  | some .h => .ok 2
  | none => .ok 4
  | some .ll | some .l => .error .unimplemented

def fromStrRadixUnwrap (max : Nat) (chars : List UInt8) (base : Nat) : Except Stdlib.Panic Int :=
  match fromStrRadix max chars base with
  | none => .error .unwrap
  | some value => .ok value

structure Parse where
  base : Nat
  max : Nat
  negation : Int → Except Stdlib.Panic Int

def signedParse (base : Nat) : Parse where
  base := base
  max := 2 ^ 63 - 1
  negation := fun num => if num = -2 ^ 63 then .error .unwrap else .ok (-num)

def unsignedParse (base : Nat) : Parse where
  base := base
  max := 2 ^ 64 - 1
  negation := fun num => .ok (wrappingNeg 64 num)

def integer (args : Nat → Nat) (parse : Parse) (width : Nat)
    (modifier : Option LengthModifier) (o : Progress) (s : σ) : Except Stdlib.Panic (Bool × Progress × σ) := do
  let (res, s) ← strToIntInnerGeneric r fuel o.srcCharIdx parse.base (if width > 0 then width else 2 ^ 32 - 1)
    (fromStrRadixUnwrap parse.max) parse.negation s
  match res with
  | none => .ok (false, o, s)
  | some (val, len) =>
    let size ← LengthModifier.size modifier
    let o ← ((o.advance len).nextArg).write (args o.argIdx) size val
    .ok (true, o.addMatched 1, s)

def stringLoop (r : Subject σ) (width : Nat) : Nat → Nat → Nat → Progress → σ → Except Stdlib.Panic (Nat × Progress × σ)
  | 0, _, _, _, _ => .error .fuel
  | fuel + 1, dst, written, o, s => do
    match ← r.getc o.srcCharIdx s with
    | (none, s) => .ok (dst, o, s)
    | (some cc, s) =>
      if isWhitespace cc = false then
        if cc = 0 then .ok (dst, o, s)
        else if width > 0 ∧ written ≥ width then
          let s ← r.ungetc cc s
          .ok (dst, o, s)
        else
          let o ← o.write dst 1 cc.toNat
          let dst ← incrPtr dst
          stringLoop r width fuel dst (written + 1) (o.advance 1) s
      else
        let s ← r.ungetc cc s
        .ok (dst, o, s)

def string (args : Nat → Nat) (width : Nat) (modifier : Option LengthModifier) (o : Progress)
    (s : σ) : Except Stdlib.Panic (Bool × Progress × σ) := do
  if modifier ≠ none then .error .assertion
  else
    let (dst, o, s) ← stringLoop r width fuel (args o.argIdx) 0 o.nextArg s
    let o ← o.write dst 1 0
    .ok (true, o.addMatched 1, s)

/-- Building the set, as ranges, and what is left of the format, which is read beyond its end if it ends within a set. -/
def buildSet : List UInt8 → List (UInt8 × UInt8) → Except Stdlib.Panic (List (UInt8 × UInt8) × List UInt8)
  | [], _ => .error .fuel
  | c :: format, set =>
    if c = 93 then .ok (set, format)
    else
      match format with
      | dash :: cc :: format =>
        if dash = 45 then if cc = 93 then .error .assertion else buildSet format (set ++ [(c, cc)])
        else buildSet (dash :: cc :: format) (set ++ [(c, c)])
      | format => buildSet format (set ++ [(c, c)])

def readSet (format : List UInt8) : Except Stdlib.Panic (Bool × List (UInt8 × UInt8) × List UInt8) := do
  if format.head? = some 93 then .error .assertion
  else if format.head? = some 94 then
    if format.tail.head? = some 93 then .error .assertion
    else
      let (set, format) ← buildSet format.tail []
      .ok (true, set, format)
  else
    let (set, format) ← buildSet format []
    .ok (false, set, format)

def inSet (inverted : Bool) (set : List (UInt8 × UInt8)) (cc : UInt8) : Bool :=
  ((set.any fun range => range.1 ≤ cc ∧ cc ≤ range.2) ^^ inverted) && cc != 0

def takeChar (o : Progress) (s : σ) : Except Stdlib.Panic (UInt8 × Progress × σ) := do
  match ← r.getc o.srcCharIdx s with
  | (none, _) => .error .unwrap
  | (some cc, s) => .ok (cc, o.advance 1, s)

/-- The loop of `%[`, with the character that has been read: the last one read, the end of what was stored and how many
    matched. -/
def setLoop (r : Subject σ) (member : UInt8 → Bool) (width : Nat) :
    Nat → UInt8 → Nat → Nat → Progress → σ → Except Stdlib.Panic (UInt8 × Nat × Nat × Progress × σ)
  | 0, _, _, _, _, _ => .error .fuel
  | fuel + 1, cc, dst, count, o, s => do
    if member cc then
      let o ← o.write dst 1 cc.toNat
      let dst ← incrPtr dst
      if width > 0 ∧ count + 1 = width then .ok (cc, dst, count + 1, o, s)
      else
        let (cc, o, s) ← takeChar r o s
        setLoop r member width fuel cc dst (count + 1) o s
    else .ok (cc, dst, count, o, s)

def set (r : Subject σ) (fuel : Nat) (args : Nat → Nat) (width : Nat) (modifier : Option LengthModifier)
    (format : List UInt8) (o : Progress) (s : σ) : Except Stdlib.Panic (List UInt8 × Progress × σ) := do
  if modifier ≠ none then .error .assertion
  else
    let (inverted, set, format) ← readSet format
    let (cc, o', s) ← takeChar r o.nextArg s
    let (cc, dst, count, o', s) ← setLoop r (inSet inverted set) width fuel cc (args o.argIdx) 0 o' s
    let (o', s) ← if inSet inverted set cc = false then do
        let s ← r.ungetc cc s
        .ok ({ o' with srcCharIdx := o'.srcCharIdx - 1 }, s)
      else .ok (o', s)
    -- without a match, the argument that is about to be counted is taken away first
    let o' ← if count > 0 then o'.write dst 1 0 else .ok (o'.addMatched (-1))
    .ok (format, o'.addMatched 1, s)

/-- What follows a `%`. It gives the rest of the format, or nothing if the loop is left. -/
def conversion (args : Nat → Nat) (format : List UInt8) (o : Progress) (s : σ) :
    Except Stdlib.Panic (Option (List UInt8) × Progress × σ) := do
  let (width, format) := maxWidth format 0
  let (modifier, format) := lengthModifier format
  let specifier := format.headD 0
  let format := format.tail
  if specifier = 91 then
    let (format, o, s) ← set r fuel args width modifier format o s
    .ok (some format, o, s)
  else if specifier = 99 ∨ specifier = 110 then .error .unimplemented
  else
    let (more, o, s) ← spaces r fuel o s
    if more = false then .ok (none, o, s)
    else if specifier = 100 ∨ specifier = 105 then
      let (more, o, s) ← integer r fuel args (signedParse (if specifier = 100 then 10 else 0)) width modifier o s
      .ok (if more then some format else none, o, s)
    else if specifier = 120 ∨ specifier = 88 ∨ specifier = 117 then
      let (more, o, s) ← integer r fuel args (unsignedParse (if specifier = 117 then 10 else 16)) width modifier o s
      .ok (if more then some format else none, o, s)
    else if specifier = 115 then
      let (more, o, s) ← string r fuel args width modifier o s
      .ok (if more then some format else none, o, s)
    else .error .unimplemented

def sscanfCommonGeneric (r : Subject σ) (fuel : Nat) (args : Nat → Nat) :
    Nat → List UInt8 → Progress → σ → Except Stdlib.Panic (Progress × σ)
  | 0, _, _, _ => .error .fuel
  | _ + 1, [], o, s => .ok (o, s)
  | rounds + 1, c :: format, o, s => do
    if c = 0 then .ok (o, s)
    else if c ≠ 37 then
      let (more, o, s) ← ordinary r fuel c o s
      if more then sscanfCommonGeneric r fuel args rounds format o s else .ok (o, s)
    else
      match ← conversion r fuel args format o s with
      | (none, o, s) => .ok (o, s)
      | (some format, o, s) => sscanfCommonGeneric r fuel args rounds format o s

def sscanf (env : Env) (src : Nat) (format : List UInt8) (args : Nat → Nat) :
    Except Stdlib.Panic (Int × Progress × Env) := do
  let (o, env) ← sscanfCommonGeneric (cString src) fuel args (format.length + 1) format .start (env.setErrno 0)
  .ok (o.matchedArgs, o, env)

def fileStream (filePtr : Nat) : Subject Env where
  getc := fun _ env => do
    let (c, env) ← ofLibc (env.fgetc filePtr)
    if c = EOF then .ok (none, env)
    else if 0 ≤ c ∧ c < 256 then .ok (some (.ofNat c.toNat), env)
    else .error .tryInto
  ungetc := fun c env => do
    let (res, env) ← ofLibc (env.ungetc c.toNat filePtr)
    if res ≠ c.toNat then .error .assertion else .ok env

def fscanf (env : Env) (filePtr : Nat) (format : List UInt8) (args : Nat → Nat) :
    Except Stdlib.Panic (Int × Progress × Env) := do
  let env := env.setErrno 0
  match ← (fileStream filePtr).getc 0 env with
  | (none, env) => .ok (EOF, .start, env)
  | (some cc, env) =>
    let env ← (fileStream filePtr).ungetc cc env
    let (o, env) ← sscanfCommonGeneric (fileStream filePtr) fuel args (format.length + 1) format .start env
    .ok (o.matchedArgs, o, env)

end TouchHLE.Libc.Scanf
