import Mathlib.Algebra.Order.Ring.Nat
import Mathlib.Data.Char

/-! UTF-16: characters as sequences of code units. A character outside the basic plane is a pair of surrogates, and a
    sequence of code units is the encoding of a text exactly when its surrogates are paired. -/

namespace TouchHLE.Lib.Utf16

def isHigh (n : Nat) : Prop := 0xD800 ≤ n ∧ n < 0xDC00

def isLow (n : Nat) : Prop := 0xDC00 ≤ n ∧ n < 0xE000

instance (n : Nat) : Decidable (isHigh n) := inferInstanceAs (Decidable (_ ∧ _))

instance (n : Nat) : Decidable (isLow n) := inferInstanceAs (Decidable (_ ∧ _))

def high (n : Nat) : Nat := 0xD800 + n / 0x400

def low (n : Nat) : Nat := 0xDC00 + n % 0x400

def pair (high low : Nat) : Nat := 0x10000 + ((high - 0xD800) * 0x400 + (low - 0xDC00))

variable (c : Char) (text : List Char)

def encodeChar : List UInt16 :=
  if c.toNat < 0x10000 then [.ofNat c.toNat]
  else [.ofNat (high (c.toNat - 0x10000)), .ofNat (low (c.toNat - 0x10000))]

def encode : List UInt16 := text.flatMap encodeChar

/-- The text that a sequence of code units encodes, if its surrogates are paired. -/
def decode : List UInt16 → Option (List Char)
  | [] => some []
  | [u] => if isHigh u.toNat ∨ isLow u.toNat then none else some [.ofNat u.toNat]
  | u :: v :: rest =>
    if isHigh u.toNat then
      if isLow v.toNat then (decode rest).map (.ofNat (pair u.toNat v.toNat) :: ·) else none
    else if isLow u.toNat then none
    else (decode (v :: rest)).map (.ofNat u.toNat :: ·)

def WellFormed (units : List UInt16) : Prop := (decode units).isSome

instance (units : List UInt16) : Decidable (WellFormed units) := inferInstanceAs (Decidable (_ = _))

@[simp] theorem encode_nil : encode [] = [] := rfl

@[simp] theorem encode_cons : encode (c :: text) = encodeChar c ++ encode text := rfl

theorem toNat_ofNat_of_valid {n : Nat} (h : n.isValidChar) : (Char.ofNat n).toNat = n := by
  rw [Char.ofNat, dif_pos h]
  rfl

theorem ofNat_toNat_unit (u : UInt16) : UInt16.ofNat u.toNat = u := UInt16.ofNat_toNat

theorem toNat_ofNat_unit {n : Nat} (h : n < 0x10000) : (UInt16.ofNat n).toNat = n := by
  exact Nat.mod_eq_of_lt h

theorem valid : c.toNat.isValidChar := c.valid

theorem not_surrogate : ¬isHigh c.toNat ∧ ¬isLow c.toNat := by
  have h := valid c
  unfold isHigh isLow
  omega

theorem isHigh_high {n : Nat} (h : n < 0x100000) : isHigh (high n) := by
  unfold isHigh high
  omega

theorem isLow_low (n : Nat) : isLow (low n) := by
  unfold isLow low
  omega

theorem pair_high_low (n : Nat) : pair (high n) (low n) = 0x10000 + n := by
  unfold pair high low
  omega

theorem pair_bounds {u v : Nat} (hu : isHigh u) (hv : isLow v) : 0x10000 ≤ pair u v ∧ pair u v < 0x110000 := by
  unfold isHigh at hu
  unfold isLow at hv
  unfold pair
  omega

theorem high_pair {u v : Nat} (hu : isHigh u) (hv : isLow v) : high (pair u v - 0x10000) = u := by
  unfold isHigh at hu
  unfold isLow at hv
  unfold high pair
  omega

theorem low_pair {u v : Nat} (hv : isLow v) : low (pair u v - 0x10000) = v := by
  unfold isLow at hv
  unfold low pair
  omega

/-! ### Decoding inverts encoding -/

theorem decode_encodeChar (units : List UInt16) : decode (encodeChar c ++ units) = (decode units).map (c :: ·) := by
  obtain ⟨hhg, hlow⟩ := not_surrogate c
  by_cases hc : c.toNat < 0x10000
  · have huit := toNat_ofNat_unit hc
    rw [encodeChar, if_pos hc, List.singleton_append]
    cases units with
    | nil =>
      rw [decode, decode, huit, if_neg (not_or.mpr ⟨hhg, hlow⟩), Char.ofNat_toNat]
      rfl
    | cons v rest => rw [decode, huit, if_neg hhg, if_neg hlow, Char.ofNat_toNat]
  · have hlt : c.toNat - 0x10000 < 0x100000 := by
      have h := valid c
      omega
    have hhi := isHigh_high hlt
    have hlo := isLow_low (c.toNat - 0x10000)
    have hu := toNat_ofNat_unit (n := high (c.toNat - 0x10000)) (by unfold isHigh at hhi; omega)
    have hv := toNat_ofNat_unit (n := low (c.toNat - 0x10000)) (by unfold isLow at hlo; omega)
    have hpai : pair (high (c.toNat - 0x10000)) (low (c.toNat - 0x10000)) = c.toNat := by
      rw [pair_high_low]
      omega
    rw [encodeChar, if_neg hc, List.cons_append, List.singleton_append, decode, hu, hv, if_pos hhi, if_pos hlo, hpai,
      Char.ofNat_toNat]

theorem decode_encode : decode (encode text) = some text := by
  induction text with
  | nil => rfl
  | cons c text ih => rw [encode_cons, decode_encodeChar, ih, Option.map_some]

theorem encodeChar_unit {u : UInt16} (hhg : ¬isHigh u.toNat) (hlow : ¬isLow u.toNat) :
    encodeChar (.ofNat u.toNat) = [u] := by
  have hlt := u.toNat_lt
  have hvd : u.toNat.isValidChar := by
    unfold isHigh at hhg
    unfold isLow at hlow
    omega
  rw [encodeChar, toNat_ofNat_of_valid hvd, if_pos hlt, ofNat_toNat_unit]

theorem encodeChar_pair {u v : UInt16} (hu : isHigh u.toNat) (hv : isLow v.toNat) :
    encodeChar (.ofNat (pair u.toNat v.toNat)) = [u, v] := by
  obtain ⟨hge, hlt⟩ := pair_bounds hu hv
  have hvd : (pair u.toNat v.toNat).isValidChar := by
    omega
  rw [encodeChar, toNat_ofNat_of_valid hvd, if_neg (Nat.not_lt.mpr hge), high_pair hu hv, low_pair hv,
    ofNat_toNat_unit, ofNat_toNat_unit]

theorem encode_of_decode {units : List UInt16} : ∀ {text : List Char}, decode units = some text → encode text = units := by
  induction units using decode.induct with
  | case1 =>
    intro text h
    cases h
    rfl
  | case2 u hu =>
    intro text h
    rw [decode, if_pos hu] at h
    cases h
  | case3 u hu =>
    intro text h
    rw [decode, if_neg hu] at h
    cases h
    rw [encode_cons, encodeChar_unit (not_or.mp hu).1 (not_or.mp hu).2, encode_nil, List.append_nil]
  | case4 u v rest hu hv ih =>
    intro text h
    rw [decode, if_pos hu, if_pos hv] at h
    obtain ⟨text', hrs, rfl⟩ := Option.map_eq_some_iff.mp h
    rw [encode_cons, encodeChar_pair hu hv, ih hrs]
    rfl
  | case5 u v rest hu hv =>
    intro text h
    rw [decode, if_pos hu, if_neg hv] at h
    cases h
  | case6 u v rest hu hl =>
    intro text h
    rw [decode, if_neg hu, if_pos hl] at h
    cases h
  | case7 u v rest hu hl ih =>
    intro text h
    rw [decode, if_neg hu, if_neg hl] at h
    obtain ⟨text', hrs, rfl⟩ := Option.map_eq_some_iff.mp h
    rw [encode_cons, encodeChar_unit hu hl, ih hrs]
    rfl

theorem decode_eq_none {units : List UInt16} : decode units = none ↔ ¬WellFormed units := by
  rw [WellFormed, Option.not_isSome_iff_eq_none]

end TouchHLE.Lib.Utf16
