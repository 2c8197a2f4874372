import TouchHLE.Theorems.Libc.Scan
import TouchHLE.Theorems.Libc.Stdio

/-! # Conversions of strings to integers

The closure of `str_to_int_inner_generic` counts a zero as a part of the prefix, where the C standard has it as a digit. That
makes a difference for a hexadecimal zero alone; and a sign alone is taken for an octal zero. -/

namespace TouchHLE.Libc.Stdlib
open Lib Numeral Reader Spec Scan List Option Environment IntType
variable {text : List UInt8}

/-! ### What is read in a string -/

def startsX : List UInt8 → Bool
  | [] => false
  | x :: _ => x = 120 ∨ x = 88

variable (base : Nat) (body : List UInt8)

def codeBase : Nat :=
  if base ≠ 0 then base else if body.head? = some 48 then if startsX body.tail then 16 else 8 else 10

def codePrefix : Nat :=
  if body.head? = some 48 then if base = 16 then if startsX body.tail then 2 else 1 else if base = 8 then 1 else 0 else 0

def codeDigits : List UInt8 := (body.drop (codePrefix base body)).takeWhile (isDigit base)

def withDigits (p : Scan) (n : Nat) (digits : List UInt8) : Scan :=
  { p.skip n with chars := digits, len := p.len + n + digits.length }

section
variable {p : Scan} {body : List UInt8} {base maxLength : Nat}

theorem skip_zero (p : Scan) : p.skip 0 = p := rfl

theorem skip_skip (p : Scan) : (p.skip 1).skip 1 = p.skip 2 := rfl

theorem withDigits_nil (n : Nat) (hcs : p.chars = []) : withDigits p n [] = p.skip n := by
  simp [withDigits, skip, hcs]

theorem codePrefix_cons (base : Nat) (c : UInt8) (text : List UInt8) : codePrefix base (c :: text) =
    if c = 48 then if base = 16 then if startsX text then 2 else 1 else if base = 8 then 1 else 0 else 0 := by
  by_cases hc : c = 48 <;> simp [codePrefix, hc]

theorem codePrefix_le (base : Nat) (body : List UInt8) : codePrefix base body ≤ body.length := by
  match body with
  | [] => exact Nat.le_refl 0
  | [c] =>
    rw [codePrefix_cons]
    simp only [startsX, Bool.false_eq_true, if_false, length_singleton]
    split_ifs <;> omega
  | c :: x :: text =>
    rw [codePrefix_cons, length_cons, length_cons]
    split_ifs <;> omega

theorem foundDigits_skip (n : Nat) (hcs : p.chars = []) (text : List UInt8) : foundDigits maxLength (p.skip n) text =
      (withDigits p n ((text.take (maxLength - (p.len + n))).takeWhile (isDigit p.base)),
        text.drop ((text.take (maxLength - (p.len + n))).takeWhile (isDigit p.base)).length) := by
  simp [foundDigits, digitsIn, skip, withDigits, hcs]

/-- The digits after a prefix, as far as the length allows. -/
theorem foundPrefix_limited (hcs : p.chars = []) (hft : 0 < codePrefix p.base body →
      p.len + codePrefix p.base body < maxLength) {digits}
    (hdg : ((body.drop (codePrefix p.base body)).take (maxLength - p.len - codePrefix p.base body)).takeWhile
      (isDigit p.base) = digits) :
    foundPrefix false maxLength p body =
      (withDigits p (codePrefix p.base body) digits, body.drop (codePrefix p.base body + digits.length)) := by
  subst hdg
  cases body with
  | nil => simp [foundPrefix, codePrefix, withDigits_nil 0 hcs, skip_zero]
  | cons c text =>
    rw [foundPrefix]
    by_cases hzr : (p.base = 8 ∨ p.base = 16) ∧ c = 48
    · obtain ⟨hbs, rfl⟩ := hzr
      rw [codePrefix_cons, if_pos rfl] at hft
      rw [if_pos ⟨hbs, rfl⟩]
      by_cases h16 : p.base = 16
      · rw [if_pos h16] at hft
        have hfu : p.len + 1 ≠ maxLength := by
          split_ifs at hft <;> omega
        rw [if_neg hfu, if_pos h16]
        cases text with
        | nil => simp [foundX, codePrefix, h16, startsX, withDigits_nil 1 hcs]
        | cons x text =>
          by_cases hx : x = 120 ∨ x = 88
          · have hsat : startsX (x :: text) = true := decide_eq_true hx
            have hpre : codePrefix p.base (48 :: x :: text) = 2 := by simp [codePrefix, h16, hsat]
            rw [if_pos hsat] at hft
            rw [foundX, if_pos hx, if_neg (by simp only [skip]; omega), skip_skip,
              foundDigits_skip 2 hcs, hpre, Nat.sub_sub, Nat.add_comm 2, drop_succ_cons,
              drop_succ_cons]
            rfl
          · have hpre : codePrefix p.base (48 :: x :: text) = 1 := by simp [codePrefix, h16, startsX, hx]
            rw [foundX, if_neg hx, foundDigits_skip 1 hcs, hpre, Nat.sub_sub, Nat.add_comm 1, drop_succ_cons]
            rfl
      · have h8 : p.base = 8 := hbs.resolve_right h16
        have hpre : codePrefix p.base (48 :: text) = 1 := by simp [codePrefix, h8]
        rw [if_neg h16, if_pos h8] at hft
        rw [if_neg (by omega), if_neg h16, if_neg Bool.false_ne_true, foundDigits_skip 1 hcs, hpre,
          Nat.sub_sub, Nat.add_comm 1, drop_succ_cons]
        rfl
    · have hpre : codePrefix p.base (c :: text) = 0 := by
        rw [codePrefix_cons]
        split_ifs <;> simp_all
      rw [if_neg hzr, ← skip_zero p, foundDigits_skip 0 hcs, skip_zero, hpre]
      simp

theorem foundPrefix_string (hcs : p.chars = []) (hlen : p.len + body.length < maxLength) :
    (foundPrefix false maxLength p body).1 = withDigits p (codePrefix p.base body) (codeDigits p.base body) := by
  have hle := codePrefix_le p.base body
  have hall : (body.drop (codePrefix p.base body)).take (maxLength - p.len - codePrefix p.base body) =
      body.drop (codePrefix p.base body) := take_of_length_le (by rw [length_drop]; omega)
  rw [foundPrefix_limited hcs (by omega) (by rw [hall, ← codeDigits])]

theorem baseOf_string (base : Nat) (body : List UInt8) : Scan.baseOf (some 0) base body = some (codeBase base body) := by
  cases body with
  | nil => by_cases hbs : base = 0 <;> simp [Scan.baseOf, codeBase, hbs]
  | cons c text =>
    by_cases hbs : base = 0
    · by_cases hc : c = 48
      · cases text with
        | nil | cons x text => simp [Scan.baseOf, codeBase, hbs, hc, startsX]
      · simp [Scan.baseOf, codeBase, hbs, hc]
    · simp [Scan.baseOf, codeBase, hbs]

theorem found_string (hlen : text.length < maxLength) (h1 : 1 < maxLength) :
    (found (some 0) false base maxLength text).1 = ⟨(text.takeWhile isSpace).length,
        (unsigned text).1.toList.length + codePrefix (codeBase base (unsigned text).2) (unsigned text).2 +
          (codeDigits (codeBase base (unsigned text).2) (unsigned text).2).length,
        (unsigned text).1,
        (unsigned text).1.toList.length + codePrefix (codeBase base (unsigned text).2) (unsigned text).2,
        codeDigits (codeBase base (unsigned text).2) (unsigned text).2,
        codeBase base (unsigned text).2⟩ := by
  have hle : (text.dropWhile isSpace).length ≤ text.length := (dropWhile_sublist _).length_le
  unfold found unsigned
  cases hrs : text.dropWhile isSpace with
  | nil =>
    rw [foundSign, foundBase, baseOf_string]
    rw [foundPrefix_string rfl (by simp; omega)]
    simp [withDigits, skip, splitSign]
  | cons c rest =>
    rw [hrs, length_cons] at hle
    rw [foundSign]
    by_cases hc : c = 43 ∨ c = 45
    · rw [if_pos hc, if_neg (by simp; omega), foundBase, baseOf_string]
      rw [foundPrefix_string rfl (by simp [skip]; omega)]
      simp [withDigits, skip, splitSign, hc]
    · rw [if_neg hc, foundBase, baseOf_string]
      rw [foundPrefix_string rfl (by simp; omega)]
      simp [withDigits, skip, splitSign, hc]

end

def codeNumeral (signed : Bool) (body : List UInt8) : Option (Nat × Nat) :=
  let b := codeBase base body
  if codeDigits b body ≠ [] then some (value b (codeDigits b body), codePrefix b body + (codeDigits b body).length)
  else if b = 8 ∧ (signed = true ∨ 0 < codePrefix b body) then some (0, codePrefix b body)
  else none

def specNumeral : Option (Nat × Nat) :=
  let digits := (body.drop (prefixFor base body)).takeWhile (isDigit (baseFor base body))
  if digits = [] then none else some (value (baseFor base body) digits, prefixFor base body + digits.length)

/-- A zero that is all of a hexadecimal number: the code takes it for a prefix. -/
def LoneZero : Prop := body.head? = some 48 ∧ hasHexPrefix body = false ∧
    (base = 16 ∧ (∀ c, body.tail.head? = some c → isDigit 16 c = false) ∨ base = 0 ∧ startsX body.tail = true)

/-- A sign without octal digits: the code takes it for a zero. -/
def BareSign (signed : Bool) (body : List UInt8) : Prop :=
  base = 8 ∧ signed = true ∧ ∀ c, body.head? = some c → isDigit 8 c = false

section
variable {base : Nat} {signed : Bool} {body : List UInt8}

theorem takeWhile_eq_nil_iff {p} : body.takeWhile p = [] ↔ ∀ c, body.head? = some c → p c = false := by
  cases body with
  | nil => simp
  | cons c text =>
    cases hc : p c with
    | true | false => simp [hc]

theorem not_isDigit_x (hx : startsX text = true) {b : Nat} (hb : b ≤ 16) : text.takeWhile (isDigit b) = [] := by
  refine takeWhile_eq_nil_iff.mpr fun c hc => ?_
  have hdt : digit c = some 33 := by
    cases text with
    | nil => cases hc
    | cons x text =>
      cases hc
      rcases of_decide_eq_true hx with rfl | rfl <;> decide
  simp [isDigit, hdt]
  omega

theorem startsX_of_hasHexPrefix {c} (h : hasHexPrefix (c :: text) = true) :
    c = 48 ∧ startsX text = true ∧ ∃ d, text.tail.head? = some d ∧ isDigit 16 d = true := by
  match text, h with
  | x :: d :: text, h =>
    have := of_decide_eq_true h
    exact ⟨this.1, decide_eq_true this.2.1, d, rfl, this.2.2⟩

theorem codeNumeral_hex (hhex : hasHexPrefix (48 :: text) = true) (hbs : base = 0 ∨ base = 16) :
    codeNumeral base signed (48 :: text) = specNumeral base (48 :: text) := by
  obtain ⟨-, hx, d, hd, hdt⟩ := startsX_of_hasHexPrefix hhex
  have hco : codeBase base (48 :: text) = 16 := by
    rcases hbs with rfl | rfl <;> simp [codeBase, hx]
  have hspc : baseFor base (48 :: text) = 16 := by
    rcases hbs with rfl | rfl <;> simp [baseFor, hhex]
  have hpre : codePrefix 16 (48 :: text) = 2 := by simp [codePrefix, hx]
  have hpre' : prefixFor base (48 :: text) = 2 := by simp [prefixFor, hhex, hbs]
  have hne : text.tail.takeWhile (isDigit 16) ≠ [] := by
    intro hnil
    rw [takeWhile_eq_nil_iff.mp hnil d hd] at hdt
    cases hdt
  simp [codeNumeral, specNumeral, hco, hspc, hpre, hpre', codeDigits, hne]

/-- Without a prefix both agree, unless a sign alone is taken for a zero. -/
theorem codeNumeral_plain {b : Nat} (hco : codeBase base body = b) (hspc : baseFor base body = b)
    (hpre : codePrefix b body = 0) (hpre' : prefixFor base body = 0)
    (hsi : b = 8 → signed = true → body.takeWhile (isDigit 8) ≠ []) :
    codeNumeral base signed body = specNumeral base body := by
  by_cases hnil : body.takeWhile (isDigit b) = []
  · have hnot : ¬(b = 8 ∧ signed = true) := by
      rintro ⟨rfl, hsg⟩
      exact hsi rfl hsg hnil
    simpa [codeNumeral, specNumeral, hco, hspc, hpre, hpre', codeDigits, hnil] using hnot
  · simp [codeNumeral, specNumeral, hco, hspc, hpre, hpre', codeDigits, hnil]

/-- After a zero that the code skips both agree, unless nothing follows a hexadecimal one. -/
theorem codeNumeral_zero {b : Nat} (hb : 0 < b) (hco : codeBase base (48 :: text) = b)
    (hspc : baseFor base (48 :: text) = b) (hpre : codePrefix b (48 :: text) = 1)
    (hpre' : prefixFor base (48 :: text) = 0) (hmr : b ≠ 8 → text.takeWhile (isDigit b) ≠ []) :
    codeNumeral base signed (48 :: text) = specNumeral base (48 :: text) := by
  have hzr := isDigit_zero hb
  by_cases hnil : text.takeWhile (isDigit b) = []
  · have h8 : b = 8 := by
      by_contra hne
      exact hmr hne hnil
    subst h8
    simp [codeNumeral, specNumeral, hco, hspc, hpre, hpre', codeDigits, hnil, hzr]
  · simp [codeNumeral, specNumeral, hco, hspc, hpre, hpre', codeDigits, hnil, hzr, Nat.add_comm]

theorem head_of_hasHexPrefix (h : hasHexPrefix body = true) : body.head? = some 48 := by
  cases body with
  | nil => cases h
  | cons c text => rw [(startsX_of_hasHexPrefix h).1, head?_cons]

theorem exists_cons_of_head {c} (h : body.head? = some c) : ∃ text, body = c :: text := by
  cases body with
  | nil => cases h
  | cons d text =>
    cases h
    exact ⟨text, rfl⟩

theorem codeNumeral_eq (hzr : ¬LoneZero base body) (hsi : ¬BareSign base signed body) :
    codeNumeral base signed body = specNumeral base body := by
  by_cases hhd : body.head? = some 48
  · obtain ⟨text, rfl⟩ := exists_cons_of_head hhd
    by_cases hhex : hasHexPrefix (48 :: text) = true ∧ (base = 0 ∨ base = 16)
    · exact codeNumeral_hex hhex.1 hhex.2
    have hpre' : prefixFor base (48 :: text) = 0 := if_neg fun hbt => hhex hbt.symm
    -- otherwise an `x` leaves the zero alone
    have hx : base = 0 ∨ base = 16 → startsX text = false := by
      intro h
      by_contra hx
      rw [Bool.not_eq_false] at hx
      have hnot : hasHexPrefix (48 :: text) = false := by
        rw [← Bool.not_eq_true]
        exact fun htu => hhex ⟨htu, h⟩
      rcases h with rfl | rfl
      · exact hzr ⟨hhd, hnot, .inr ⟨rfl, hx⟩⟩
      · exact hzr ⟨hhd, hnot, .inl ⟨rfl, takeWhile_eq_nil_iff.mp (not_isDigit_x hx (Nat.le_refl 16))⟩⟩
    have hnhx : startsX text = false → hasHexPrefix (48 :: text) = false := by
      intro hx
      rw [← Bool.not_eq_true]
      intro htu
      rw [(startsX_of_hasHexPrefix htu).2.1] at hx
      cases hx
    by_cases h0 : base = 0
    · have hx := hx (.inl h0)
      refine codeNumeral_zero (by omega) ?_ ?_ ?_ hpre' (fun hne => absurd rfl hne)
      · simp [codeBase, h0, hx]
      · simp [baseFor, h0, hnhx hx]
      · simp [codePrefix]
    have hco : codeBase base (48 :: text) = base := if_pos h0
    have hspc : baseFor base (48 :: text) = base := if_pos h0
    by_cases h16 : base = 16
    · have hx := hx (.inr h16)
      refine codeNumeral_zero (Nat.pos_of_ne_zero h0) hco hspc (by simp [codePrefix, h16, hx]) hpre' ?_
      intro _ hnil
      rw [h16] at hnil
      exact hzr ⟨hhd, hnhx hx, .inl ⟨h16, takeWhile_eq_nil_iff.mp hnil⟩⟩
    by_cases h8 : base = 8
    · exact codeNumeral_zero (Nat.pos_of_ne_zero h0) hco hspc (by simp [codePrefix, h8]) hpre' (fun hne => absurd h8 hne)
    · exact codeNumeral_plain hco hspc (by simp [codePrefix, h8, h16]) hpre' (fun h => absurd h h8)
  · have hhex : hasHexPrefix body = false := by
      rw [← Bool.not_eq_true]
      exact fun h => hhd (head_of_hasHexPrefix h)
    refine codeNumeral_plain rfl ?_ (if_neg hhd) (by simp [prefixFor, hhex]) ?_
    · simp [baseFor, codeBase, hhex, hhd]
    · intro h8 hsg hnil
      have hbase8 : base = 8 := by
        by_cases h0 : base = 0
        · simp [codeBase, h0, hhd] at h8
        · rwa [codeBase, if_pos h0] at h8
      exact hsi ⟨hbase8, hsg, takeWhile_eq_nil_iff.mp hnil⟩

theorem codeNumeral_loneZero (signed : Bool) (h : LoneZero base body) :
    codeNumeral base signed body = none ∧ specNumeral base body = some (0, 1) := by
  obtain ⟨hhd, hhex, hbs⟩ := h
  obtain ⟨text, rfl⟩ := exists_cons_of_head hhd
  have hpre' : prefixFor base (48 :: text) = 0 := by simp [prefixFor, hhex]
  have hco : codeBase base (48 :: text) = 16 := by
    rcases hbs with ⟨rfl, -⟩ | ⟨rfl, hx⟩
    · rfl
    · have hx : startsX text = true := hx
      simp [codeBase, hx]
  -- in the base of the code nothing follows the prefix, and in the base of the standard nothing follows the zero
  have hdg : codeDigits 16 (48 :: text) = [] := by
    cases hx : startsX text with
    | true =>
      have hpre : codePrefix 16 (48 :: text) = 2 := by simp [codePrefix, hx]
      rw [codeDigits, hpre]
      refine takeWhile_eq_nil_iff.mpr fun d hd => ?_
      cases text with
      | nil => cases hx
      | cons x text =>
        obtain ⟨text, rfl⟩ := exists_cons_of_head hd
        by_contra hdt
        rw [Bool.not_eq_false] at hdt
        have : hasHexPrefix (48 :: x :: d :: text) = true := decide_eq_true ⟨rfl, of_decide_eq_true hx, hdt⟩
        rw [hhex] at this
        cases this
    | false =>
      have hpre : codePrefix 16 (48 :: text) = 1 := by simp [codePrefix, hx]
      rw [codeDigits, hpre]
      rcases hbs with ⟨-, hnot⟩ | ⟨-, htu⟩
      · exact takeWhile_eq_nil_iff.mpr hnot
      · rw [tail_cons, hx] at htu
        cases htu
  constructor
  · simp [codeNumeral, hco, hdg]
  · rcases hbs with ⟨rfl, hnot⟩ | ⟨rfl, hx⟩
    · have hspc : baseFor 16 (48 :: text) = 16 := rfl
      have hnil : text.takeWhile (isDigit 16) = [] := takeWhile_eq_nil_iff.mpr hnot
      simp [specNumeral, hpre', hspc, isDigit_zero, hnil]
    · have hspc : baseFor 0 (48 :: text) = 8 := by simp [baseFor, hhex]
      have hnil : text.takeWhile (isDigit 8) = [] := not_isDigit_x hx (by omega)
      simp [specNumeral, hpre', hspc, isDigit_zero, hnil]

theorem codeNumeral_bareSign (h : BareSign base signed body) :
    codeNumeral base signed body = some (0, 0) ∧ specNumeral base body = none := by
  obtain ⟨rfl, hsg, hnot⟩ := h
  have hhd : body.head? ≠ some 48 := by
    intro hzr
    have := hnot 48 hzr
    cases this
  have hnil : body.takeWhile (isDigit 8) = [] := takeWhile_eq_nil_iff.mpr hnot
  have hco : codeBase 8 body = 8 := rfl
  have hpre : codePrefix 8 body = 0 := if_neg hhd
  have hspc : baseFor 8 body = 8 := rfl
  have hpre' : prefixFor 8 body = 0 := rfl
  constructor
  · simp [codeNumeral, hco, hpre, codeDigits, hnil, hsg]
  · simp [specNumeral, hspc, hpre', hnil]

end
/-! ### Strings in memory -/

structure CString (env : Env) (str : Nat) (text : List UInt8) : Prop where
  pos : 0 < str
  fits : str + text.length < 2 ^ 32
  holds : Mem.Holds env.mem.bytes str (text ++ [0])
  noNul : 0 ∉ text

section
variable {env : Env} {str base fuel : Nat}

theorem CString.setErrno (h : CString env str text) (val : Int) : CString (env.setErrno val) str text :=
  ⟨h.pos, h.fits, h.holds, h.noNul⟩

theorem CString.getc (h : CString env str text) {i : Nat} {c} (hc : (text ++ [0])[i]? = some c) :
    (cString str).getc i env = .ok (some c, env) := by
  have hi : i < (text ++ [0]).length := (List.getElem?_eq_some_iff.mp hc).1
  have hft := h.fits
  rw [length_append, length_singleton] at hi
  have hbyt : env.memRead (str + i) 1 = .ok c.toNat := by
    rw [Env.memRead, if_pos (by omega)]
    simp [readLe, h.holds i c hc]
  have hbn : ¬2 ^ 32 ≤ str + i := by omega
  simp only [cString, if_neg hbn, hbyt, ofLibc, ok_bind, UInt8.ofNat_toNat]

theorem CString.reads (h : CString env str text) :
    (cString str).Reads (some 0) false (fun _ i rest env' => env' = env ∧ i ≤ text.length ∧ rest = text.drop i) where
  cons := by
    rintro k i c rest _ ⟨rfl, hi, hrs⟩
    have hlt : i < text.length := by
      by_contra hge
      rw [drop_eq_nil_of_le (Nat.le_of_not_lt hge)] at hrs
      cases hrs
    rw [drop_eq_getElem_cons hlt] at hrs
    cases hrs
    refine ⟨_, h.getc ?_, rfl, hlt, rfl⟩
    rw [getElem?_append_left hlt, getElem?_eq_getElem hlt]
  back := by
    rintro k l i c rest _ _ ⟨rfl, hi, hrs⟩ ⟨rfl, -, -⟩
    exact ⟨_, rfl, rfl, hi, hrs⟩
  nil := by
    rintro k i _ ⟨rfl, hi, hrs⟩
    have hend : i = text.length := Nat.le_antisymm hi (drop_eq_nil_iff.mp hrs.symm)
    refine ⟨_, h.getc ?_, ⟨rfl, hi, hrs⟩, fun c _ => ⟨_, rfl, rfl, hi, hrs⟩⟩
    rw [hend]
    simp
  mono := fun hs => hs
  place := fun hfa => nomatch hfa
  stay := fun _ _ _ _ _ _ hs => ⟨_, rfl, hs⟩

theorem codeBase_range (hbs : base = 0 ∨ 2 ≤ base ∧ base ≤ 36) (body : List UInt8) :
    2 ≤ codeBase base body ∧ codeBase base body ≤ 36 := by
  unfold codeBase
  rcases hbs with rfl | hbs
  · split
    · omega
    · split
      · split <;> omega
      · omega
  · rw [if_pos (by omega)]
    exact hbs

def lead (text : List UInt8) : Nat := (text.takeWhile isSpace).length + (unsigned text).1.toList.length

theorem toList_length_pos (sign : Option UInt8) : 0 < sign.toList.length ↔ sign.isSome = true := by
  cases sign <;> simp

theorem strToIntInnerGeneric_string (h : CString env str text) (hfl : text.length < fuel)
    (hbs : base = 0 ∨ 2 ≤ base ∧ base ≤ 36) (convert : List UInt8 → Nat → Except Panic Int) (magnitude : Nat → Int)
    (negation : Int → Int) (hcv : ∀ chars b, chars ≠ [] → convert chars b = .ok (magnitude (value b chars)))
    (hzr : magnitude 0 = 0) (hneg : negation 0 = 0) :
    strToIntInnerGeneric (cString str) fuel 0 base (2 ^ 32 - 1) convert (fun num => .ok (negation num)) env =
      .ok ((codeNumeral base (unsigned text).1.isSome (unsigned text).2).map fun n =>
        (if (unsigned text).1 = some 45 then negation (magnitude n.1) else magnitude n.1, lead text + n.2), env) := by
  have hlen : text.length < 2 ^ 32 - 1 := by
    have := h.pos
    have := h.fits
    omega
  obtain ⟨_, hsa, rfl, -, -⟩ := scan_gives (k := 0) h.reads (.inl ⟨rfl, rfl⟩) ⟨rfl, Nat.zero_le _, rfl⟩ hfl
    (show 0 < 2 ^ 32 - 1 by omega) (show base ≤ 36 by omega)
  obtain ⟨hlow, hhg⟩ := codeBase_range hbs (unsigned text).2
  have hpos := toList_length_pos (unsigned text).1
  rw [drop_zero, found_string hlen (by omega)] at hsa
  rw [strToIntInnerGeneric, hsa, ok_bind]
  dsimp only
  rw [if_neg (not_not.mpr ⟨hlow, hhg⟩), codeNumeral, lead]
  generalize codeBase base (unsigned text).2 = b at *
  by_cases hnil : codeDigits b (unsigned text).2 = []
  · have hem : ¬([] : List UInt8) ≠ [] := fun hne => hne rfl
    rw [hnil, length_nil, Nat.add_zero, Nat.sub_self, if_neg (Nat.lt_irrefl 0), if_neg hem]
    have hiff : (b = 8 ∧ (unsigned text).1.toList.length + codePrefix b (unsigned text).2 > 0) ↔
        b = 8 ∧ ((unsigned text).1.isSome = true ∨ 0 < codePrefix b (unsigned text).2) := by
      rw [← hpos]
      omega
    by_cases hcd : b = 8 ∧ ((unsigned text).1.isSome = true ∨ 0 < codePrefix b (unsigned text).2)
    · rw [if_pos (hiff.mpr hcd), if_pos hcd, map_some, hzr, hneg, ite_self, Nat.add_assoc]
    · rw [if_neg (mt hiff.mp hcd), if_neg hcd, map_none]
  · have hln := length_pos_iff.mpr hnil
    rw [if_pos (by omega), hcv _ _ hnil, ok_bind, if_pos hnil, map_some]
    by_cases hmn : (unsigned text).1 = some 45
    · rw [if_pos hmn, if_pos hmn, ok_bind]
      simp [Nat.add_assoc]
    · rw [if_neg hmn, if_neg hmn, ok_bind]
      simp [Nat.add_assoc]

end

inductive Conversion where
  | strtol | strtoul | strtoll | strtoull
deriving DecidableEq

namespace Conversion

def call : Conversion → Nat → Env → Nat → Nat → Int → Except Panic (Int × Env)
  | strtol => Stdlib.strtol
  | strtoul => Stdlib.strtoul
  | strtoll => Stdlib.strtoll
  | strtoull => Stdlib.strtoull

def type : Conversion → IntType
  | strtol => ⟨true, 32⟩
  | strtoul => ⟨false, 32⟩
  | strtoll => ⟨true, 64⟩
  | strtoull => ⟨false, 64⟩

def negation (f : Conversion) (num : Int) : Int :=
  if f.type.signed then negOrMin f.type.bits num else wrappingNeg f.type.bits num

theorem call_eq (f : Conversion) (fuel : Nat) (env : Env) (str endptr : Nat) {base : Nat} (hbs : base ≤ 36) :
    f.call fuel env str endptr base = strTo f.type.greatest f.negation fuel env str endptr base := by
  have hmod : ((base : Int) % 2 ^ 32).toNat = base := by omega
  cases f with
  | strtol =>
    show strTo _ _ fuel env str endptr ((base : Int) % 2 ^ 32).toNat = _
    rw [hmod]
    rfl
  | strtoul =>
    rfl
  | strtoll =>
    rfl
  | strtoull =>
    rfl

def codeValue (f : Conversion) (negative : Prop) [Decidable negative] (magnitude : Nat) : Int :=
  if negative then f.negation (min f.type.greatest magnitude : Nat) else (min f.type.greatest magnitude : Nat)

/-- The value is that of the standard unless the magnitude of a negative number does not fit. -/
theorem codeValue_eq_iff (f : Conversion) (n : Spec.Numeral) :
    f.codeValue n.negative n.magnitude = f.type.convert n ↔ ¬(n.negative ∧ f.type.greatest < n.magnitude) := by
  unfold codeValue convert
  by_cases hneg : n.negative
  · cases f with
    | strtol | strtoll =>
      simp only [hneg, if_true, negation, type, greatest, least, negOrMin, true_and]
      split <;> omega
    | strtoul | strtoull =>
      simp only [hneg, if_true, negation, type, greatest, wrappingNeg, true_and, Bool.false_eq_true, if_false]
      split <;> omega
  · cases f with
    | strtol | strtoll =>
      simp only [hneg, type, greatest, if_true, if_false, false_and, not_false_eq_true, iff_true]
      omega
    | strtoul | strtoull =>
      simp only [hneg, type, greatest, Bool.false_eq_true, if_false, false_and, not_false_eq_true, iff_true]
      split <;> omega

end Conversion

section
variable {env : Env} {str base fuel : Nat}

theorem splitSign_parts {body rest} {sign} (hsp : splitSign body = (sign, rest)) :
    body.length = sign.toList.length + rest.length ∧ (∀ n, body.drop (sign.toList.length + n) = rest.drop n) ∧
      (sign = none → rest = body) := by
  unfold splitSign at hsp
  split at hsp
  · cases hsp
    exact ⟨rfl, fun n => by simp, fun _ => rfl⟩
  · split at hsp
    · cases hsp
      refine ⟨by simp [Nat.add_comm], fun n => ?_, by simp⟩
      rw [toList_some, length_singleton, Nat.add_comm, drop_succ_cons]
    · cases hsp
      exact ⟨by simp, fun n => by simp, fun _ => rfl⟩

theorem length_lead (text : List UInt8) : lead text + (unsigned text).2.length = text.length := by
  have hsp : (text.takeWhile isSpace).length + (text.dropWhile isSpace).length = text.length := by
    rw [← length_append, takeWhile_append_dropWhile]
  obtain ⟨sign, rest, hsi⟩ : ∃ sign rest, splitSign (text.dropWhile isSpace) = (sign, rest) := ⟨_, _, rfl⟩
  have hpar := (splitSign_parts hsi).1
  rw [lead, unsigned, hsi]
  dsimp only
  omega

theorem codePrefix_add_le (b : Nat) (body : List UInt8) : codePrefix b body + (codeDigits b body).length ≤ body.length := by
  have hle := codePrefix_le b body
  have hdg : (codeDigits b body).length ≤ (body.drop (codePrefix b body)).length := (takeWhile_sublist _).length_le
  rw [length_drop] at hdg
  omega

theorem codeNumeral_le {signed} {body} {n} (h : codeNumeral base signed body = some n) :
    n.2 ≤ body.length := by
  have hle := codePrefix_add_le (codeBase base body) body
  unfold codeNumeral at h
  dsimp only at h
  split at h
  · cases h
    exact hle
  · split at h
    · cases h
      omega
    · cases h

theorem writeEndptr_spec (env : Env) {endptr ptr : Nat} (hend : endptr + 4 ≤ 2 ^ 32) (hptr : ptr < 2 ^ 32) :
    ∃ env', writeEndptr endptr ptr env = .ok env' ∧ (endptr ≠ 0 → readLe env'.mem.bytes endptr 4 = ptr) := by
  by_cases hnl : endptr = 0
  · exact ⟨env, if_pos hnl, fun h => absurd hnl h⟩
  · obtain ⟨mem, hcp, hset⟩ := Mem.copyFromSlice_ok env.mem hend
      (show ((List.range 4).map fun i => .ofNat (ptr / 256 ^ i)).length ≤ 4 by simp)
    refine ⟨{ env with mem }, ?_, fun _ => ?_⟩
    · simp [writeEndptr, hnl, hcp, ofMem, ofLibc]
    · have hwre := readLe_written env.mem.bytes endptr 4 ptr 4 0 (Nat.le_refl 4)
      have hptr' : ptr < 256 ^ 4 := hptr
      rw [Nat.add_zero endptr, Nat.pow_zero, Nat.div_one, Nat.mod_eq_of_lt hptr'] at hwre
      rw [← hwre]
      refine readLe_congr 4 endptr fun x hlow hhg => ?_
      have hx : x - endptr < 4 := by omega
      simp [hset, Mem.overwrite, hlow, hhg, hx]

variable (f : Conversion)

def codeResult (base : Nat) (text : List UInt8) : Int × Nat :=
  match codeNumeral base (unsigned text).1.isSome (unsigned text).2 with
  | none => (0, 0)
  | some n => (f.codeValue ((unsigned text).1 = some 45) n.1, lead text + n.2)

section
variable (h : CString env str text) (hfl : text.length < fuel)
include h hfl

theorem Conversion.inner_string (hbs : base = 0 ∨ 2 ≤ base ∧ base ≤ 36) :
    strToIntInnerGeneric (cString str) fuel 0 base (2 ^ 32 - 1)
        (fun chars b => .ok ((fromStrRadix f.type.greatest chars b).getD f.type.greatest))
        (fun num => .ok (f.negation num)) (env.setErrno 0) =
      .ok ((codeNumeral base (unsigned text).1.isSome (unsigned text).2).map fun n =>
        (f.codeValue ((unsigned text).1 = some 45) n.1, lead text + n.2), env.setErrno 0) := by
  have hcv : ∀ chars b, chars ≠ [] →
      (.ok ((fromStrRadix f.type.greatest chars b).getD f.type.greatest) : Except Panic Int) =
        .ok ((min f.type.greatest (value b chars) : Nat) : Int) := by
    intro chars b hne
    unfold fromStrRadix
    split
    · rename_i hlrg
      rw [getD_none, Nat.min_eq_left (Nat.le_of_lt (hlrg.resolve_left hne))]
    · rename_i hsl
      rw [getD_some, Nat.min_eq_right (Nat.le_of_not_lt fun hlt => hsl (.inr hlt))]
  have hneg : f.negation 0 = 0 := by
    cases f <;> rfl
  exact strToIntInnerGeneric_string (h.setErrno 0) hfl hbs _ (fun m => (min f.type.greatest m : Nat)) f.negation hcv
    (by simp) hneg

theorem Conversion.call_string (hbs : base = 0 ∨ 2 ≤ base ∧ base ≤ 36) {endptr : Nat} (hend : endptr + 4 ≤ 2 ^ 32) :
    ∃ env', f.call fuel env str endptr base = .ok ((codeResult f base text).1, env') ∧
      (endptr ≠ 0 → readLe env'.mem.bytes endptr 4 = str + (codeResult f base text).2) := by
  have hft := h.fits
  rw [f.call_eq fuel env str endptr (by omega), strTo]
  rw [f.inner_string h hfl hbs, ok_bind, codeResult]
  cases hnmr : codeNumeral base (unsigned text).1.isSome (unsigned text).2 with
  | none =>
    obtain ⟨env', hwi, hrd⟩ := writeEndptr_spec (env.setErrno 0) hend (show str < 2 ^ 32 by omega)
    refine ⟨env', ?_, hrd⟩
    simp [hwi]
  | some n =>
    have hle := codeNumeral_le hnmr
    have hled := length_lead text
    have hptr : str + (lead text + n.2) < 2 ^ 32 := by omega
    obtain ⟨env', hwi, hrd⟩ := writeEndptr_spec (env.setErrno 0) hend hptr
    refine ⟨env', ?_, hrd⟩
    simp only [map_some, if_neg (Nat.not_le.mpr hptr), hwi, ok_bind]

theorem atoi_string : atoi fuel env str = .ok ((codeResult .strtol 10 text).1, env.setErrno 0) := by
  rw [atoi, codeResult]
  erw [Conversion.strtol.inner_string h hfl (.inr (by omega)), ok_bind]
  cases codeNumeral 10 (unsigned text).1.isSome (unsigned text).2 <;> rfl

end

/-- A negative number whose magnitude is more than the greatest value of the type. -/
def TooLow (t : IntType) (base : Nat) (text : List UInt8) : Prop :=
  ∃ n, subjectSequence base text = some n ∧ n.negative ∧ t.greatest < n.magnitude

/-- The value and the end are those of the subject sequence, for every `endptr`; the end is the start exactly if there is
    no subject sequence. -/
def Conforms (fuel : Nat) (env : Env) (str base : Nat) (text : List UInt8) : Prop := ∀ endptr, endptr + 4 ≤ 2 ^ 32 →
    ∃ env', f.call fuel env str endptr base = .ok ((Spec.strTo f.type base text).1, env') ∧
      (endptr ≠ 0 → readLe env'.mem.bytes endptr 4 = str + (Spec.strTo f.type base text).2 ∧
        (readLe env'.mem.bytes endptr 4 = str ↔ subjectSequence base text = none))

theorem subjectSequence_cases (base : Nat) (text : List UInt8) :
    (specNumeral base (unsigned text).2 = none ∧ subjectSequence base text = none) ∨
      ∃ n m, subjectSequence base text = some n ∧ n.sign = (unsigned text).1 ∧ 0 < n.stop ∧
        specNumeral base (unsigned text).2 = some (n.magnitude, m) ∧ n.stop = lead text + m := by
  unfold specNumeral subjectSequence
  dsimp only
  generalize hdg : ((unsigned text).2.drop (prefixFor base (unsigned text).2)).takeWhile
    (isDigit (baseFor base (unsigned text).2)) = digits
  by_cases hnil : digits = []
  · exact .inl ⟨if_pos hnil, if_pos hnil⟩
  · have hln : 0 < digits.length := length_pos_iff.mpr hnil
    refine .inr ⟨_, _, if_neg hnil, rfl, ?_, if_neg hnil, ?_⟩
    · dsimp only
      omega
    · simp [lead, Nat.add_assoc]

theorem conforms_iff_result (h : CString env str text) (hbs : base = 0 ∨ 2 ≤ base ∧ base ≤ 36)
    (hfl : text.length < fuel) :
    Conforms f fuel env str base text ↔ codeResult f base text = Spec.strTo f.type base text := by
  constructor
  · intro hcnf
    obtain ⟨env', hcl, hrd⟩ := f.call_string h hfl hbs (show 4 + 4 ≤ 2 ^ 32 by omega)
    obtain ⟨env'', hcl', hrd'⟩ := hcnf 4 (by omega)
    rw [hcl] at hcl'
    obtain ⟨hvl, rfl⟩ := Prod.mk.inj (Except.ok.inj hcl')
    have hstp := (hrd (by omega)).symm.trans (hrd' (by omega)).1
    exact Prod.ext hvl (Nat.add_left_cancel hstp)
  · intro heq endptr hend
    obtain ⟨env', hcl, hrd⟩ := f.call_string h hfl hbs hend
    rw [heq] at hcl hrd
    refine ⟨env', hcl, fun hnl => ⟨hrd hnl, ?_⟩⟩
    rw [hrd hnl, Spec.strTo]
    rcases subjectSequence_cases base text with ⟨-, hno⟩ | ⟨n, m, hso, -, hpos, -⟩
    · simp [hno]
    · simp only [hso, reduceCtorEq, iff_false]
      omega

/-- The four functions give the value and the end of the subject sequence, except for a hexadecimal zero alone, for a
    sign without octal digits in base 8, and for a negative number that is out of range without its sign. -/
theorem conforms_iff (env : Env) (str base fuel : Nat) (text : List UInt8) (h : CString env str text)
    (hbase : base = 0 ∨ 2 ≤ base ∧ base ≤ 36) (hfuel : text.length < fuel) :
    Conforms f fuel env str base text ↔
      ¬LoneZero base (unsigned text).2 ∧ ¬BareSign base (unsigned text).1.isSome (unsigned text).2 ∧
        ¬TooLow f.type base text := by
  rw [conforms_iff_result f h hbase hfuel, codeResult, Spec.strTo]
  have hcases := subjectSequence_cases base text
  by_cases hzero : LoneZero base (unsigned text).2
  · obtain ⟨hcode, hspec⟩ := codeNumeral_loneZero (unsigned text).1.isSome hzero
    rcases hcases with ⟨hnone, -⟩ | ⟨n, m, hsome, -, hpos, -⟩
    · rw [hspec] at hnone
      cases hnone
    · simp only [hcode, hsome, hzero, not_true, false_and, iff_false]
      intro heq
      have := congrArg Prod.snd heq
      omega
  by_cases hsign : BareSign base (unsigned text).1.isSome (unsigned text).2
  · obtain ⟨hcode, hspec⟩ := codeNumeral_bareSign hsign
    have hlead : 0 < lead text := by
      have := (toList_length_pos (unsigned text).1).mpr hsign.2.1
      unfold lead
      omega
    rcases hcases with ⟨-, hnone⟩ | ⟨n, m, -, -, -, hsome, -⟩
    · simp only [hcode, hnone, hsign, not_true, false_and, and_false, iff_false]
      intro heq
      have := congrArg Prod.snd heq
      omega
    · rw [hspec] at hsome
      cases hsome
  rw [codeNumeral_eq hzero hsign]
  rcases hcases with ⟨hspec, hnone⟩ | ⟨n, m, hsome, hn, -, hspec, hstop⟩
  · have hlow : ¬TooLow f.type base text := by
      rintro ⟨n, hn, -⟩
      rw [hnone] at hn
      cases hn
    simp [hspec, hnone, hzero, hsign, hlow]
  · have hlow : TooLow f.type base text ↔ n.negative ∧ f.type.greatest < n.magnitude := by
      constructor
      · rintro ⟨n', hn', hlow⟩
        rw [hsome] at hn'
        cases hn'
        exact hlow
      · exact fun hlow => ⟨n, hsome, hlow⟩
    have hvalue := f.codeValue_eq_iff n
    simp only [hspec, hsome, hzero, hsign, hlow, hstop, not_false_eq_true, true_and, Prod.mk.injEq, and_true]
    rw [← hvalue, ← hn]
    rfl

theorem codeResult_value_iff {n} (hn : subjectSequence base text = some n) :
    (codeResult f base text).1 = f.type.convert n ↔ ¬(n.negative ∧ f.type.greatest < n.magnitude) := by
  rcases subjectSequence_cases base text with ⟨-, hno⟩ | ⟨n', m, hso, hsi, -, hspc, -⟩
  · rw [hn] at hno
    cases hno
  rw [hn] at hso
  cases hso
  rw [codeResult]
  by_cases hzr : LoneZero base (unsigned text).2
  · -- no number is found, and the value is zero
    obtain ⟨hco, hspc'⟩ := codeNumeral_loneZero (unsigned text).1.isSome hzr
    obtain ⟨hmgn, -⟩ := Prod.mk.inj (Option.some.inj (hspc.symm.trans hspc'))
    rw [hco, hmgn]
    refine iff_of_true ?_ fun hlow => Nat.not_lt_zero _ hlow.2
    cases f <;> simp [convert, hmgn, Conversion.type, greatest, least]
  · have hbar : ¬BareSign base (unsigned text).1.isSome (unsigned text).2 := by
      intro hbar
      rw [(codeNumeral_bareSign hbar).2] at hspc
      cases hspc
    rw [codeNumeral_eq hzr hbar, hspc, ← f.codeValue_eq_iff n]
    simp [Spec.Numeral.negative, hsi]

end

def stringEnv (mem : Mem) (text : List UInt8) : Env :=
  { opened mem [] with mem := { mem with bytes := Mem.overwrite mem.bytes 16 (text ++ [0]) } }

theorem cString_stringEnv (mem : Mem) (hnul : 0 ∉ text) (hlen : 16 + text.length < 2 ^ 32) :
    CString (stringEnv mem text) 16 text :=
  ⟨by omega, hlen, Mem.holds_overwrite, hnul⟩

/-- The string `  -0x1fg` in base 0: the number is -31, and the `g` is after it. -/
theorem conforms_iff_hex : ∃ mem, Mem.new = .ok mem ∧
    CString (stringEnv mem [32, 32, 45, 48, 120, 49, 102, 103]) 16 [32, 32, 45, 48, 120, 49, 102, 103] ∧
    Conforms .strtol 9 (stringEnv mem [32, 32, 45, 48, 120, 49, 102, 103]) 16 0 [32, 32, 45, 48, 120, 49, 102, 103] ∧
    Spec.strTo Conversion.strtol.type 0 [32, 32, 45, 48, 120, 49, 102, 103] = (-31, 7) := by
  have hstr : ∀ mem, CString (stringEnv mem [32, 32, 45, 48, 120, 49, 102, 103]) 16 [32, 32, 45, 48, 120, 49, 102, 103] :=
    fun mem => cString_stringEnv mem (by decide) (by decide)
  refine ⟨_, rfl, hstr _, (conforms_iff .strtol _ 16 0 9 _ (hstr _) (.inl rfl) (by decide)).mpr ⟨?_, ?_, ?_⟩, by decide⟩
  · exact fun h => absurd h.2.1 (by decide)
  · exact fun h => absurd h.1 (by decide)
  · rintro ⟨n, hn, -, hlt⟩
    cases hn
    exact absurd hlt (by decide)

/-- `strtol("0", endptr, 16)` ends at the start, `strtol("+", endptr, 8)` ends after the sign, and
    `strtol("-2147483648", endptr, 10)` is one too high. -/
theorem strtol_diverges : ∃ mem, Mem.new = .ok mem ∧ ¬Conforms .strtol 2 (stringEnv mem [48]) 16 16 [48] ∧
    ¬Conforms .strtol 2 (stringEnv mem [43]) 16 8 [43] ∧
    ¬Conforms .strtol 12 (stringEnv mem [45, 50, 49, 52, 55, 52, 56, 51, 54, 52, 56]) 16 10
      [45, 50, 49, 52, 55, 52, 56, 51, 54, 52, 56] := by
  refine ⟨_, rfl, ?_, ?_, ?_⟩
  all_goals
    rw [conforms_iff_result _ (cString_stringEnv _ (by decide) (by decide)) (by decide) (by decide)]
    decide

/-- For a text with a subject sequence the functions give the standard's value exactly if a negative number fits without its
    sign. -/
theorem value_iff (env : Env) (str base fuel : Nat) (text : List UInt8) (h : CString env str text)
    (hbase : base = 0 ∨ 2 ≤ base ∧ base ≤ 36) (hfuel : text.length < fuel) (n : Spec.Numeral)
    (hn : subjectSequence base text = some n) :
    (∀ f : Conversion, (∀ endptr, endptr + 4 ≤ 2 ^ 32 → ∃ env', f.call fuel env str endptr base = .ok (f.type.convert n, env')) ↔
        ¬(n.negative ∧ f.type.greatest < n.magnitude)) ∧
      (base = 10 → ((∃ env', atoi fuel env str = .ok (Conversion.strtol.type.convert n, env')) ↔
        ¬(n.negative ∧ Conversion.strtol.type.greatest < n.magnitude))) := by
  constructor
  · intro f
    rw [← codeResult_value_iff f hn]
    constructor
    · intro hall
      obtain ⟨env', hcall, -⟩ := f.call_string h hfuel hbase (show 0 + 4 ≤ 2 ^ 32 by omega)
      obtain ⟨env'', hcall'⟩ := hall 0 (by omega)
      rw [hcall] at hcall'
      exact (Prod.mk.inj (Except.ok.inj hcall')).1
    · intro heq endptr hend
      obtain ⟨env', hcall, -⟩ := f.call_string h hfuel hbase hend
      exact ⟨env', heq ▸ hcall⟩
  · rintro rfl
    rw [← codeResult_value_iff .strtol hn, atoi_string h hfuel]
    constructor
    · rintro ⟨env', heq⟩
      exact (Prod.mk.inj (Except.ok.inj heq)).1
    · exact fun heq => ⟨_, by rw [heq]⟩

/-- The string `-5`. -/
theorem value_iff_negative : ∃ mem env', Mem.new = .ok mem ∧ atoi 3 (stringEnv mem [45, 53]) 16 = .ok (-5, env') := by
  obtain ⟨env', hatoi⟩ := ((value_iff (stringEnv _ [45, 53]) 16 10 3 [45, 53] (cString_stringEnv _ (by decide) (by decide))
    (by decide) (by decide) ⟨some 45, 10, [53], 2⟩ (by decide)).2 rfl).mpr (by decide)
  exact ⟨_, env', rfl, hatoi⟩

/-- `atoi("-2147483648")` is one too high. -/
theorem value_diverges : ∃ mem, Mem.new = .ok mem ∧
    ¬∃ env', atoi 12 (stringEnv mem [45, 50, 49, 52, 55, 52, 56, 51, 54, 52, 56]) 16 = .ok (-2147483648, env') := by
  refine ⟨_, rfl, ?_⟩
  rw [atoi_string (cString_stringEnv _ (by decide) (by decide)) (by decide)]
  rintro ⟨env', heq⟩
  exact absurd (Prod.mk.inj (Except.ok.inj heq)).1 (by decide)

end TouchHLE.Libc.Stdlib
