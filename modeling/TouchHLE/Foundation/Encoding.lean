import TouchHLE.Foundation.NSString

/-! Strings as data and data as strings, in `touchHLE/src/frameworks/foundation/ns_string.rs`. The data of a string has its
    terminator in it, and so has every string that is made from the data. -/

namespace TouchHLE.Foundation
open Lib List

inductive NSStringEncoding where
  | ascii | utf8 | isoLatin1 | macOSRoman | windowsCP1252 | shiftJIS | utf16 | utf16BigEndian | utf16LittleEndian | other
deriving DecidableEq

inductive EncodingPanic where
  | notAscii
  | notUtf8
  /-- `assert_eq!(encoding_used, ..)` or `assert!(!had_errors)` -/
  | decoder
  | oddLength
  | unimplemented
  /-- the assertion on the encoding in `data_using_encoding_lossy_inner` -/
  | unsupported
  | fromUtf16
  | tryFromInt
deriving DecidableEq

/-- `str::as_bytes` -/
def asBytes (text : List Char) : List UInt8 := text.flatMap String.utf8EncodeChar

def fromUtf8 (bytes : List UInt8) : Except EncodingPanic StringHostObject :=
  match bytes.toByteArray.utf8Decode? with
  | none => .error .notUtf8
  | some text => .ok (.utf8 text.toList)

def isAscii (bytes : List UInt8) : Bool := bytes.all (· < 128)

/-- `from_utf8_unchecked`, of bytes that are text -/
def fromAscii (bytes : List UInt8) : Except EncodingPanic StringHostObject :=
  if isAscii bytes then fromUtf8 bytes else .error .notAscii

def fromChunks (bigEndian : Bool) : List UInt8 → List UInt16
  | a :: b :: rest =>
    .ofNat (if bigEndian then a.toNat * 256 + b.toNat else b.toNat * 256 + a.toNat) :: fromChunks bigEndian rest
  | _ => []

def fromUtf16Bytes (bigEndian : Bool) (bytes : List UInt8) : Except EncodingPanic StringHostObject :=
  if bytes.length % 2 = 0 then .ok (.utf16 (fromChunks bigEndian bytes)) else .error .oddLength

-- `legacy` has the decoders of `WINDOWS_1252` and `SHIFT_JIS`, which give nothing for errors.
variable (legacy : NSStringEncoding → List UInt8 → Option (List Char)) (this : StringHostObject) (encoding : NSStringEncoding)

def StringHostObject.decode (bytes : List UInt8) : Except EncodingPanic StringHostObject :=
  if bytes = [] then .ok .empty
  else
    match encoding with
    | .ascii | .macOSRoman | .isoLatin1 => fromAscii bytes
    | .utf8 => fromUtf8 bytes
    | .windowsCP1252 | .shiftJIS =>
      match legacy encoding bytes with
      | none => .error .decoder
      | some text => .ok (.utf8 text)
    | .utf16 => fromUtf16Bytes (bytes.take 2 = [0xFE, 0xFF]) bytes
    | .utf16BigEndian => fromUtf16Bytes true bytes
    | .utf16LittleEndian => fromUtf16Bytes false bytes
    | .other => .error .unimplemented

/-- `data_using_encoding_lossy_inner` without a lossy conversion: a C string, whose terminator is counted -/
def dataUsingEncoding : Except EncodingPanic (List UInt8) :=
  if encoding = .utf8 ∨ encoding = .ascii ∨ encoding = .isoLatin1 then
    match this.toUtf8 with
    | none => .error .fromUtf16
    | some string =>
      if (encoding = .ascii ∨ encoding = .isoLatin1) ∧ !isAscii (asBytes string) then .error .notAscii
      else if (asBytes string).length + 1 < 2 ^ 32 then .ok (asBytes string ++ [0])
      else .error .tryFromInt
  else .error .unsupported

def initWithData : Option (List UInt8) → Except EncodingPanic (Option StringHostObject)
  | none => .ok none
  | some bytes => do
    let new ← StringHostObject.decode legacy encoding bytes
    .ok (some new)

def RoundTrips : Prop := ∃ data made, dataUsingEncoding this encoding = .ok data ∧
  initWithData legacy encoding (some data) = .ok (some made) ∧ made.iterCodeUnits = this.iterCodeUnits

section
variable {legacy this encoding} {made : StringHostObject} {data : List UInt8} {text : List Char}

theorem fromUtf8_asBytes (text : List Char) : fromUtf8 (asBytes text) = .ok (.utf8 text) := by
  have h : (asBytes text).toByteArray.utf8Decode? = some text.toArray := utf8Decode?_utf8Encode
  rw [fromUtf8, h]

theorem fromUtf8_of_fromAscii (h : fromAscii data = .ok made) : fromUtf8 data = .ok made := by
  unfold fromAscii at h
  split at h
  · exact h
  · cases h

theorem iterCodeUnits_of_toUtf8 (h : this.toUtf8 = some text) : this.iterCodeUnits = Utf16.encode text := by
  cases this with
  | utf8 =>
    cases h
    rfl
  | utf16 => exact (Utf16.encode_of_decode h).symm

theorem dataUsingEncoding_eq_ok (h : dataUsingEncoding this encoding = .ok data) :
    (encoding = .utf8 ∨ encoding = .ascii ∨ encoding = .isoLatin1) ∧
      ∃ text, this.toUtf8 = some text ∧ data = asBytes (text ++ ['\x00']) := by
  unfold dataUsingEncoding at h
  split at h
  · rename_i henc
    refine ⟨henc, ?_⟩
    split at h
    · cases h
    · rename_i text ht
      split_ifs at h
      cases h
      refine ⟨text, ht, ?_⟩
      rw [asBytes, asBytes, flatMap_append]
      rfl
  · cases h

/-- What is made of the data of a string has one more code unit. -/
theorem initWithData_data (h : dataUsingEncoding this encoding = .ok data)
    (hi : initWithData legacy encoding (some data) = .ok (some made)) : made.iterCodeUnits = this.iterCodeUnits ++ [0] := by
  obtain ⟨henc, text, ht, rfl⟩ := dataUsingEncoding_eq_ok h
  have hne : asBytes (text ++ ['\x00']) ≠ [] := by simp [asBytes]
  obtain ⟨_, hd, ⟨⟩⟩ := bind_eq_ok.mp hi
  have hu : fromUtf8 (asBytes (text ++ ['\x00'])) = .ok made := by
    unfold StringHostObject.decode at hd
    rw [if_neg hne] at hd
    rcases henc with rfl | rfl | rfl
    · exact hd
    · exact fromUtf8_of_fromAscii hd
    · exact fromUtf8_of_fromAscii hd
  rw [fromUtf8_asBytes] at hu
  cases hu
  rw [iterCodeUnits_of_toUtf8 ht]
  exact flatMap_append

end

theorem not_roundTrips : ¬RoundTrips legacy this encoding := by
  rintro ⟨data, made, h, hi, heq⟩
  rw [initWithData_data h hi] at heq
  exact absurd (congrArg length heq) (by simp)

/-- The data of `a` is two bytes, of which a string of two characters is made. -/
theorem roundTrips_fails : dataUsingEncoding (.utf8 ['a']) .utf8 = .ok [97, 0] ∧
    ¬RoundTrips (fun _ _ => none) (.utf8 ['a']) .utf8 := by
  refine ⟨rfl, ?_⟩
  rintro ⟨data, made, h, hi, heq⟩
  rw [initWithData_data h hi] at heq
  exact absurd heq (by decide)

end TouchHLE.Foundation
