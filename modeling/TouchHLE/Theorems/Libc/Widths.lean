import TouchHLE.Theorems.Libc.Scanf

/-! # Integer conversions with a width

The scan keeps to the width, but it takes a zero for a prefix even where the width ends with it. -/

namespace TouchHLE.Libc.Scanf
open Lib Stdlib Reader Spec Numeral Scan List Progress

/-- The digits of a number without its sign. A zero is one of them, unless it is a part of `0x`. -/
def fieldDigits (base : Nat) (body : List UInt8) : List UInt8 :=
  (body.drop (if base = 16 ∧ body.head? = some 48 ∧ startsX body.tail then 2 else 0)).takeWhile (isDigit base)

/-- The number that the characters of a field stand for, if there is a digit in it. -/
def fieldValue (base : Nat) (field : List UInt8) : Option Int :=
  let body := (splitSign field).2
  let digits := fieldDigits (codeBase base body) body
  if digits = [] then none
  else
    let magnitude := value (codeBase base body) digits
    some (if (splitSign field).1 = some 45 then -magnitude else magnitude)

/-- After the sign, there is room for something after a zero or `0x`, a hexadecimal zero is not alone, and the number is in
    range. Without any room, the base has to be known. -/
def FitsAfter (parse : Parse) (room : Nat) (rest : List UInt8) : Prop :=
  let base := codeBase parse.base rest
  if room = 0 then parse.base ≠ 0
  else (0 < codePrefix base rest → codePrefix base rest < room) ∧ value base (digitsOf base room rest) ≤ parse.max ∧
    ¬(base = 16 ∧ codePrefix base rest = 1 ∧ digitsOf base room rest = [])

def Fits (parse : Parse) (width : Nat) (body : List UInt8) : Prop :=
  FitsAfter parse (width - (splitSign body).1.toList.length) (splitSign body).2

section
variable {base width room : Nat} {body rest : List UInt8} {sign : Option UInt8}

theorem splitSign_take (hsp : splitSign body = (sign, rest)) (hpos : 0 < width) :
    splitSign (body.take width) = (sign, rest.take (width - sign.toList.length)) := by
  obtain ⟨n, rfl⟩ : ∃ n, width = n + 1 := ⟨width - 1, by omega⟩
  cases body with
  | nil =>
    cases hsp
    simp [splitSign]
  | cons c text =>
    rw [take_succ_cons]
    by_cases hc : c = 43 ∨ c = 45
    · rw [splitSign, if_pos hc] at hsp ⊢
      cases hsp
      rfl
    · rw [splitSign, if_neg hc] at hsp ⊢
      cases hsp
      rfl

theorem startsX_take {text} (h : 0 < room) : startsX (text.take room) = startsX text := by
  obtain ⟨n, rfl⟩ : ∃ n, room = n + 1 := ⟨room - 1, by omega⟩
  cases text <;> rfl

/-- Cutting a number off after its prefix changes neither its base nor its digits. -/
theorem field_take {b : Nat} (hbs : codeBase base rest = b) (hrm : 0 < room) (hb : 0 < b)
    (hft : 0 < codePrefix b rest → codePrefix b rest < room) :
    codeBase base (rest.take room) = b ∧ fieldDigits b (rest.take room) =
      if codePrefix b rest = 1 then 48 :: digitsOf b room rest else digitsOf b room rest := by
  obtain ⟨n, rfl⟩ : ∃ n, room = n + 1 := ⟨room - 1, by omega⟩
  cases rest with
  | nil =>
    exact ⟨hbs, by simp [fieldDigits, digitsOf, codePrefix]⟩
  | cons c text =>
    by_cases hc : c = 48
    · subst hc
      have hn : b = 16 ∨ b = 8 → 0 < n := by
        rintro (rfl | rfl) <;> rw [codePrefix_cons] at hft <;> by_cases hx : startsX text <;> simp [hx] at hft <;> omega
      constructor
      · by_cases hzr : base = 0
        · have hn : 0 < n := by
            refine hn ?_
            rw [← hbs, codeBase, if_neg (not_not.mpr hzr), if_pos (by rfl)]
            split_ifs <;> simp
          rw [← hbs, take_succ_cons, codeBase, codeBase, tail_cons, tail_cons, startsX_take hn]
          rfl
        · simpa [codeBase, hzr] using hbs
      · rw [digitsOf, codePrefix_cons, fieldDigits]
        by_cases h16 : b = 16
        · subst h16
          by_cases hx : startsX text
          · simp [hx, startsX_take (hn (by decide)), drop_take]
          · simp [hx, startsX_take (hn (by decide)), isDigit_zero hb]
        · by_cases h8 : b = 8
          · simp [h8, isDigit_zero]
          · simp [h16, h8]
    · refine ⟨?_, by simp [fieldDigits, digitsOf, codePrefix_cons, hc]⟩
      simpa [codeBase, hc] using hbs

theorem fieldValue_of_split (hsp : splitSign body = (sign, rest)) (hpos : 0 < width) {b : Nat} {digits}
    (hb : codeBase base (rest.take (width - sign.toList.length)) = b)
    (hdg : fieldDigits b (rest.take (width - sign.toList.length)) = digits) :
    fieldValue base (body.take width) =
      if digits = [] then none else some (if sign = some 45 then -(value b digits : Int) else value b digits) := by
  subst hb hdg
  rw [fieldValue, splitSign_take hsp hpos]

end

section
variable {specifier : IntSpecifier} {size : IntSize} {width ptr : Nat} {body rest : List UInt8} {sign : Option UInt8}

theorem storeOf_negation {n : Nat} {x : Int}
    (hx : (if sign = some 45 then specifier.parse.negation n else .ok (n : Int)) = .ok x) :
    storeOf ptr size.bytes x = storeOf ptr size.bytes (if sign = some 45 then -(n : Int) else n) := by
  by_cases hmn : sign = some 45
  · rw [if_pos hmn] at hx ⊢
    have hsg : ∀ base, (signedParse base).negation n = .ok x → x = -n := by
      intro base hx
      simp only [signedParse] at hx
      split at hx <;> cases hx
      rfl
    have huni : ∀ base, (unsignedParse base).negation n = .ok x → x = (-n) % 2 ^ 64 := by
      intro base hx
      cases hx
      rfl
    have hdvd : (2 : Int) ^ (8 * size.bytes) ∣ 2 ^ 64 := pow_dvd_pow 2 (by cases size <;> decide)
    cases specifier with
    | d | i => rw [hsg _ hx]
    | u | x | X => rw [huni _ hx, storeOf, Int.emod_emod_of_dvd _ hdvd, storeOf]
  · rw [if_neg hmn] at hx ⊢
    cases hx
    rfl

/-- An outcome that stays within the width, and stores the number in the field. -/
def Outcome.Keeps (specifier : IntSpecifier) (size : IntSize) (width ptr : Nat) (body : List UInt8) : Outcome → Prop
  | .error _ => False
  | .ok (_, e, _) => e.advance ≤ width ∧
      ∀ x, fieldValue specifier.parse.base (body.take width) = some x → e.stores = [storeOf ptr size.bytes x]

theorem finish_keeps_iff {b n : Nat} {digits} (hrn : 2 ≤ b ∧ b ≤ 36) (hoc : b = 8 → n = 1)
    (hzr : n = 1 → b = 8 ∨ b = 16) (hlen : sign.toList.length + n + digits.length ≤ width)
    (hvl : fieldValue specifier.parse.base (body.take width) = if n ≠ 1 ∧ digits = [] then none
      else some (if sign = some 45 then -(value b digits : Int) else value b digits)) :
    (finishInteger specifier.parse size.bytes ptr (withDigits (afterSign b sign) n digits, rest)).Keeps specifier size width
      ptr body ↔ value b digits ≤ specifier.parse.max ∧ ¬(b = 16 ∧ n = 1 ∧ digits = []) := by
  have hreg := specifier.regular
  by_cases hmax : value b digits ≤ specifier.parse.max
  · obtain ⟨x, hx⟩ := hreg.signed hmax sign
    by_cases hne : b ≠ 8 → digits ≠ []
    · have hsto : finishInteger specifier.parse size.bytes ptr (withDigits (afterSign b sign) n digits, rest) =
          .ok (true, ⟨sign.toList.length + n + digits.length, 1, 1, [storeOf ptr size.bytes x]⟩, rest) := by
        by_cases h8 : b = 8
        · obtain rfl := hoc h8
          subst h8
          exact finish_octal hreg hmax hx
        · exact finish_digits hrn (hne h8) hmax hx
      rw [hsto]
      refine iff_of_true ⟨hlen, ?_⟩ ⟨hmax, fun hlon => hne (by omega) hlon.2.2⟩
      intro y hy
      rw [hvl] at hy
      split at hy <;> cases hy
      rw [storeOf_negation hx]
    · obtain ⟨h8, hnil⟩ := Classical.not_imp.mp hne
      obtain rfl := not_not.mp hnil
      rw [finish_none hrn h8]
      by_cases hn : n = 1
      · refine iff_of_false ?_ fun hbt => hbt.2 ⟨(hzr hn).resolve_left h8, hn, rfl⟩
        rintro ⟨-, hst⟩
        rw [hvl, if_neg (fun hbt => hbt.1 hn)] at hst
        cases hst _ rfl
      · refine iff_of_true ⟨Nat.zero_le _, ?_⟩ ⟨hmax, fun hlon => hn hlon.2.1⟩
        rw [hvl, if_pos ⟨hn, rfl⟩]
        simp
  · have hne : digits ≠ [] := by
      rintro rfl
      exact hmax (Nat.zero_le _)
    rw [finish_large hrn hne (Nat.lt_of_not_le hmax)]
    exact iff_of_false (fun hfa => hfa) fun hbt => hmax hbt.1

theorem keeps_of_room {b : Nat} (hb : codeBase specifier.parse.base rest = b) (hpos : 0 < width)
    (hsp : splitSign body = (sign, rest)) (hrm : 0 < width - sign.toList.length) :
    (finishInteger specifier.parse size.bytes ptr (foundPrefix false width (afterSign b sign) rest)).Keeps specifier size
      width ptr body ↔ FitsAfter specifier.parse (width - sign.toList.length) rest := by
  have hreg := specifier.regular
  have hrn := hreg.range rest
  rw [hb] at hrn
  rw [FitsAfter, if_neg (Nat.ne_of_gt hrm), hb]
  by_cases hcut : 0 < codePrefix b rest ∧ width ≤ sign.toList.length + codePrefix b rest
  · obtain ⟨hcs, hbs, hlen⟩ := foundPrefix_cut (p := afterSign b sign) false rfl rfl
      (show sign.toList.length < width by omega) hcut.1 hcut.2
    rw [← Prod.mk.eta (p := foundPrefix false _ _ _), finish_cut (by rw [hbs]; exact hrn) hcs hlen]
    refine iff_of_false (fun hfa => hfa) fun hft => ?_
    omega
  · have hlt (h : 0 < codePrefix b rest) : sign.toList.length + codePrefix b rest < width :=
      Nat.lt_of_not_le (not_and.mp hcut h)
    have hft (h : 0 < codePrefix b rest) : codePrefix b rest < width - sign.toList.length := by
      omega
    obtain ⟨hbs, hdg⟩ := field_take hb hrm (by omega) hft
    have hvl := fieldValue_of_split hsp hpos hbs hdg
    have hlen : (digitsOf b (width - sign.toList.length) rest).length ≤ width - sign.toList.length - codePrefix b rest :=
      (takeWhile_sublist _).length_le.trans (length_take_le _ _)
    have hoc (h8 : b = 8) : codePrefix b rest = 1 := by
      obtain ⟨text, -, hone⟩ := octal_parts hreg (hb.trans h8)
      rw [h8, hone]
    have hzr (hone : codePrefix b rest = 1) : b = 8 ∨ b = 16 := by
      rw [codePrefix] at hone
      split_ifs at hone <;> simp_all
    have hsm : (afterSign b sign).base = b := rfl
    rw [foundPrefix_limited rfl hlt (show _ = digitsOf b (width - sign.toList.length) rest from rfl), hsm,
      finish_keeps_iff hrn hoc hzr (by omega)]
    · exact (and_iff_right hft).symm
    · rw [hvl]
      by_cases hone : codePrefix b rest = 1 <;> simp [hone]

theorem integerOut_keeps_iff (hpos : 0 < width) (hspa : body.takeWhile isSpace = []) :
    (integerOut (some 0) false specifier.parse width size.bytes ptr body).Keeps specifier size width ptr body ↔
      Fits specifier.parse width body := by
  have hlmt : limit width = width := if_pos hpos
  have hbss := specifier.regular.base
  cases hsp : splitSign body with
  | mk sign rest =>
  have hsi : sign.toList.length ≤ 1 := by cases sign <;> simp
  rw [Fits, hsp, integerOut_eq, hlmt, found_body _ _ hspa hsp]
  by_cases hrm : width - sign.toList.length = 0
  · have hfu : sign ≠ none ∧ width = 1 := by
      refine ⟨?_, by omega⟩
      rintro rfl
      exact absurd hrm (Nat.ne_of_gt hpos)
    rw [FitsAfter, if_pos hrm, if_pos hfu]
    by_cases hbs : specifier.parse.base = 0
    · simp [finishInteger, afterSign, hbs, Outcome.Keeps]
    · have hrn : 2 ≤ specifier.parse.base ∧ specifier.parse.base ≤ 36 := by omega
      have hno : finishInteger specifier.parse size.bytes ptr (afterSign specifier.parse.base sign, rest) = _ :=
        finish_none (n := 0) hrn (show specifier.parse.base ≠ 8 by omega)
      rw [hno]
      refine iff_of_true ⟨Nat.zero_le _, ?_⟩ hbs
      rw [fieldValue_of_split hsp hpos rfl rfl, hrm, take_zero]
      simp [fieldDigits]
  · rw [if_neg (fun hfu => hrm (by cases sign <;> simp_all)), foundBase_string]
    exact keeps_of_room rfl hpos hsp (by omega)

end

/-- A conversion of what is at the index does not panic, takes at most its width after white space, and stores the number in
    its field. -/
def KeepsWidth (fuel : Nat) (env : Env) (src : Nat) (args : Nat → Nat) (width : List UInt8) (size : IntSize)
    (specifier : IntSpecifier) (format : List UInt8) (o : Progress) (text : List UInt8) : Prop :=
  ∃ format' o', conversion (cString src) fuel args (width ++ (size.chars ++ specifier.char :: format)) o env =
      .ok (format', o', env) ∧
    o'.srcCharIdx ≤ o.srcCharIdx + (text.takeWhile isSpace).length + widthOf width ∧
    ∀ x, fieldValue specifier.parse.base ((text.dropWhile isSpace).take (widthOf width)) = some x →
      o'.stores = o.stores ++ [storeOf (args o.argIdx) size.bytes x]

/-- The conversions of integers in a string keep to their width exactly if what they convert fits. -/
theorem keepsWidth_iff (fuel : Nat) (env : Env) (src : Nat) (args : Nat → Nat) (width : List UInt8) (size : IntSize)
    (specifier : IntSpecifier) (format : List UInt8) (o : Progress) (text : List UInt8) (h : CString env src text)
    (hdigits : Digits width) (hpos : 0 < widthOf width) (hidx : o.srcCharIdx ≤ text.length)
    (hptr : args o.argIdx + size.bytes ≤ 2 ^ 32) (hfuel : text.length < fuel) :
    KeepsWidth fuel env src args width size specifier format o (text.drop o.srcCharIdx) ↔
      Fits specifier.parse (widthOf width) ((text.drop o.srcCharIdx).dropWhile isSpace) := by
  have hsize : LengthModifier.size size.modifier = .ok size.bytes := by cases size <;> rfl
  have hbase : specifier.parse.base ≤ 36 := by cases specifier <;> decide
  have hle : (text.drop o.srcCharIdx).length ≤ text.length := (drop_sublist _ _).length_le
  have hle' : ((text.drop o.srcCharIdx).dropWhile isSpace).length ≤ _ := (dropWhile_sublist _).length_le
  have hkeeps := @integerOut_keeps_iff specifier size _ (args o.argIdx) _ hpos (takeWhile_dropWhile (text.drop o.srcCharIdx))
  rw [← hkeeps, KeepsWidth, conversion_integer hdigits, convert]
  obtain ⟨env', ⟨-, -, hstop, -⟩ | ⟨hspaces, -, hs⟩⟩ := spaces_spec (k := 1) h.reads (.inl ⟨rfl, rfl⟩)
    (text.drop o.srcCharIdx) ⟨rfl, hidx, rfl⟩ (show (text.drop o.srcCharIdx).length < fuel by omega)
  · cases hstop
  · have hdone : Done _ 0 _ (integer (cString src) fuel args specifier.parse (widthOf width) size.modifier _ env')
        (integerOut _ _ _ _ _ (args o.argIdx) _) :=
      integer_done (o := o.advance _) h.reads (.inl ⟨rfl, rfl⟩) hsize hptr hbase hs (by omega)
    rw [hspaces, ok_bind]
    dsimp only
    cases hout : integerOut _ _ specifier.parse (widthOf width) size.bytes (args o.argIdx) _ with
    | error e =>
      rw [hout] at hdone
      rw [show integer _ _ _ _ _ _ _ _ = .error e from hdone]
      refine iff_of_false ?_ (fun hfalse => hfalse)
      rintro ⟨format', o', hfalse, -⟩
      cases hfalse
    | ok x =>
      rw [hout] at hdone
      obtain ⟨j, s', hdone, ⟨rfl, -⟩, -⟩ := hdone
      rw [hdone]
      constructor
      · rintro ⟨format', o', hran, hle, hstores⟩
        cases hran
        refine ⟨by simpa [apply, advance] using hle, fun x hx => ?_⟩
        simpa [apply, advance] using hstores x hx
      · rintro ⟨hle, hstores⟩
        refine ⟨_, _, rfl, by simpa [apply, advance] using hle, fun x hx => ?_⟩
        simpa [apply, advance] using hstores x hx

/-- The conversion `%4i` of the text ` -0x1f`, from which it takes `-0x1`. -/
theorem keepsWidth_iff_hex : ∃ mem, Mem.new = .ok mem ∧ CString (stringEnv mem [32, 45, 48, 120, 49, 102]) 16
      [32, 45, 48, 120, 49, 102] ∧ fieldValue 0 [45, 48, 120, 49] = some (-1) ∧
    KeepsWidth 7 (stringEnv mem [32, 45, 48, 120, 49, 102]) 16 (fun _ => 64) [52] .int .i [] .start
      [32, 45, 48, 120, 49, 102] := by
  have hstr : ∀ mem, CString (stringEnv mem [32, 45, 48, 120, 49, 102]) 16 [32, 45, 48, 120, 49, 102] :=
    fun mem => cString_stringEnv mem (by decide) (by decide)
  refine ⟨_, rfl, hstr _, by decide, ?_⟩
  refine (keepsWidth_iff 7 _ 16 _ [52] .int .i [] .start _ (hstr _) (by simp [Digits]) (by decide) (by decide) (by decide)
    (by decide)).mpr ?_
  unfold Fits FitsAfter
  decide

/-- The conversions `%1i` of `-5`, `%1x` of `0` and `%2i` of `0x5` panic, and so does `%20d` of a number with 19 digits;
    `%2x` stores nothing for a zero. -/
theorem keepsWidth_fails : ∃ mem, Mem.new = .ok mem ∧
    sscanf 3 (stringEnv mem [45, 53]) 16 [37, 49, 105] (fun _ => 64) = .error .assertion ∧
    sscanf 2 (stringEnv mem [48]) 16 [37, 49, 120] (fun _ => 64) = .error .unwrap ∧
    sscanf 4 (stringEnv mem [48, 120, 53]) 16 [37, 50, 105] (fun _ => 64) = .error .unwrap ∧
    sscanf 20 (stringEnv mem (replicate 19 57)) 16 [37, 50, 48, 100] (fun _ => 64) = .error .unwrap ∧
    fieldValue 16 [48] = some 0 ∧
    ¬KeepsWidth 2 (stringEnv mem [48]) 16 (fun _ => 64) [50] .int .x [] .start [48] := by
  refine ⟨_, rfl, rfl, rfl, rfl, rfl, by decide, ?_⟩
  rintro ⟨format', o', hran, -, hstores⟩
  cases hran
  cases hstores 0 (by decide)

end TouchHLE.Libc.Scanf
