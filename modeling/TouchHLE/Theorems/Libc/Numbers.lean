import TouchHLE.Theorems.Libc.Formats
import TouchHLE.Theorems.Libc.Strtol

/-! Integer conversions of a string and of a stream. They part where the end of the input matters, where a part of a number
    was read in vain, and where an octal number fills its width: the zero is put back into a stream and counted again. -/

namespace TouchHLE.Libc.Scanf
open Lib Stdlib Reader Spec Numeral Scan List

def Effect.Same (e e' : Effect) : Prop := e.matched = e'.matched ∧ e.args = e'.args ∧ e.stores = e'.stores

/-- What a string and a stream with the same text come to: the same is counted and stored, and as much is left in the stream
    as is not counted in the string. -/
def Alike (text : List UInt8) : Except Stdlib.Panic (Effect × List UInt8) → Except Stdlib.Panic (Effect × List UInt8) → Prop
  | .ok (e, _), .ok (e', rest) => e.matched = e'.matched ∧ e.stores = e'.stores ∧ e.advance + rest.length = text.length
  | _, _ => False

def Outcome.effect (out : Outcome) : Except Stdlib.Panic (Effect × List UInt8) :=
  match out with
  | .error e => .error e
  | .ok (_, e, rest) => .ok (e, rest)

/-- A directive that takes `n` characters, or ends the format, if it is calm; and otherwise the subjects part. -/
inductive Compared (text : List UInt8) (calm : Prop) : Option Nat → Outcome → Outcome → Prop
  | stops {e e' : Effect} {rest rest' : List UInt8} (h : calm) (hsame : e.Same e')
      (hlen : e.advance + rest'.length = text.length) : Compared text calm none (.ok (false, e, rest)) (.ok (false, e', rest'))
  | goesOn {e e' : Effect} {n : Nat} (h : calm) (hsame : e.Same e') (hn : e.advance = n) (hle : n ≤ text.length) :
      Compared text calm (some n) (.ok (true, e, text.drop n)) (.ok (true, e', text.drop n))
  | parts {takes : Option Nat} {out out' : Outcome} (h : ¬calm) (hdiffer : ¬Alike text out.effect out'.effect) :
      Compared text calm takes out out'

theorem not_alike_error {text} (out : Outcome) {e} :
    ¬Alike text out.effect (Outcome.effect (.error e)) := by
  cases out <;> exact fun hfa => hfa

theorem Effect.Same.refl (e : Effect) : e.Same e := ⟨rfl, rfl, rfl⟩

def digitsOf (base room : Nat) (body : List UInt8) : List UInt8 :=
  ((body.drop (codePrefix base body)).take (room - codePrefix base body)).takeWhile (isDigit base)

section
variable {p : Scan} {body : List UInt8} {maxLength : Nat}

/-- Only an octal zero makes a difference to what follows the base. -/
theorem foundPrefix_rewinds (h : ¬(p.base = 8 ∧ body.head? = some 48)) (rewinds : Bool) :
    foundPrefix rewinds maxLength p body = foundPrefix false maxLength p body := by
  cases body with
  | nil => rfl
  | cons c text =>
    unfold foundPrefix
    by_cases hc : (p.base = 8 ∨ p.base = 16) ∧ c = 48
    · have h16 : p.base = 16 := hc.1.resolve_left fun h8 => h ⟨h8, congrArg some hc.2⟩
      simp [if_pos h16]
    · simp [if_neg hc]

theorem foundPrefix_cut (rewinds : Bool) (hcs : p.chars = []) (hlen : p.prefixLength = p.len) (hlt : p.len < maxLength)
    (hpos : 0 < codePrefix p.base body) (hcut : maxLength ≤ p.len + codePrefix p.base body) :
    (foundPrefix rewinds maxLength p body).1.chars = [] ∧ (foundPrefix rewinds maxLength p body).1.base = p.base ∧
      (foundPrefix rewinds maxLength p body).1.prefixLength < (foundPrefix rewinds maxLength p body).1.len := by
  cases body with
  | nil => exact absurd hpos (Nat.lt_irrefl 0)
  | cons c text =>
    rw [codePrefix_cons] at hpos hcut
    have hzr : (p.base = 8 ∨ p.base = 16) ∧ c = 48 := by
      split_ifs at hpos <;> simp_all
    rw [foundPrefix, if_pos hzr]
    by_cases hfu : p.len + 1 = maxLength
    · rw [if_pos hfu]
      exact ⟨hcs, rfl, by simp [hlen]⟩
    · -- the width ends after the x
      rw [if_neg hfu]
      have hx : p.base = 16 ∧ startsX text = true ∧ p.len + 1 + 1 = maxLength := by
        split_ifs at hcut <;> first | omega | exact ⟨‹_›, ‹_›, by omega⟩
      obtain ⟨h16, hx, hfu'⟩ := hx
      rw [if_pos h16]
      cases text with
      | nil => cases hx
      | cons x text =>
        rw [foundX, if_pos (of_decide_eq_true hx), if_pos (show (p.skip 1).len + 1 = maxLength from hfu')]
        exact ⟨hcs, rfl, by simp [skip, hlen]⟩

end

def finishInteger (parse : Parse) (size ptr : Nat) (x : Scan × List UInt8) : Outcome :=
  if ¬(2 ≤ x.1.base ∧ x.1.base ≤ 36) then .error .assertion
  else if x.1.len - x.1.prefixLength > 0 then
    match scanned parse x.1 with
    | .error e => .error e
    | .ok value => .ok (true, ⟨x.1.whitespaceLen + x.1.len, 1, 1, [storeOf ptr size value]⟩, x.2)
  else if x.1.base = 8 ∧ x.1.prefixLength > 0 then
    .ok (true, ⟨x.1.whitespaceLen + x.1.prefixLength, 1, 1, [storeOf ptr size 0]⟩, x.2)
  else .ok (false, .none, x.2)

theorem integerOut_eq (stop : Option UInt8) (rewinds : Bool) (parse : Parse) (width size ptr : Nat) (text : List UInt8) :
    integerOut stop rewinds parse width size ptr text =
      finishInteger parse size ptr (found stop rewinds parse.base (limit width) text) := rfl

def afterSign (base : Nat) (sign : Option UInt8) : Scan := ⟨0, sign.toList.length, sign, sign.toList.length, [], base⟩

section
variable {parse : Parse} {size ptr b n : Nat} {sign : Option UInt8} {digits rest : List UInt8}

theorem finish_cut {p} (hrn : 2 ≤ p.base ∧ p.base ≤ 36) (hcs : p.chars = []) (hlen : p.prefixLength < p.len) :
    finishInteger parse size ptr (p, rest) = .error .unwrap := by
  have hpos : p.len - p.prefixLength > 0 := by omega
  simp only [finishInteger, hrn, not_true, if_false, hpos, if_true, scanned, fromStrRadixUnwrap, fromStrRadix, hcs,
    true_or, and_self]
  rfl

section
variable (hrn : 2 ≤ b ∧ b ≤ 36) (hne : digits ≠ [])
include hrn hne

theorem finish_scanned : finishInteger parse size ptr (withDigits (afterSign b sign) n digits, rest) =
      match scanned parse (withDigits (afterSign b sign) n digits) with
      | .error e => .error e
      | .ok value => .ok (true, ⟨(withDigits (afterSign b sign) n digits).whitespaceLen +
          (withDigits (afterSign b sign) n digits).len, 1, 1, [storeOf ptr size value]⟩, rest) := by
  have hpos := length_pos_iff.mpr hne
  have hlen : (withDigits (afterSign b sign) n digits).len - (withDigits (afterSign b sign) n digits).prefixLength > 0 := by
    simp only [withDigits, skip, afterSign]
    omega
  have hbs : (withDigits (afterSign b sign) n digits).base = b := rfl
  unfold finishInteger
  rw [hbs, if_neg (not_not.mpr hrn), if_pos hlen]

theorem finish_digits (hmax : value b digits ≤ parse.max) {x : Int}
    (hx : (if sign = some 45 then parse.negation (value b digits) else .ok (value b digits : Nat)) = .ok x) :
    finishInteger parse size ptr (withDigits (afterSign b sign) n digits, rest) =
      .ok (true, ⟨sign.toList.length + n + digits.length, 1, 1, [storeOf ptr size x]⟩, rest) := by
  have hcv : fromStrRadixUnwrap parse.max digits b = .ok (value b digits : Nat) := by
    simp [fromStrRadixUnwrap, fromStrRadix, hne, Nat.not_lt.mpr hmax]
  have hscn : scanned parse (withDigits (afterSign b sign) n digits) = .ok x := by
    by_cases hmn : sign = some 45
    · rw [if_pos hmn] at hx
      simp [scanned, withDigits, skip, afterSign, hcv, hmn, hx]
    · rw [if_neg hmn] at hx
      simp [scanned, withDigits, skip, afterSign, hcv, hmn, hx]
  rw [finish_scanned hrn hne, hscn]
  simp [withDigits, afterSign, skip]

theorem finish_large (hmax : parse.max < value b digits) :
    finishInteger parse size ptr (withDigits (afterSign b sign) n digits, rest) = .error .unwrap := by
  have hscn : scanned parse (withDigits (afterSign b sign) n digits) = .error .unwrap := by
    simp [scanned, withDigits, afterSign, skip, fromStrRadixUnwrap, fromStrRadix, hmax]
  rw [finish_scanned hrn hne, hscn]

end

theorem finish_none (hrn : 2 ≤ b ∧ b ≤ 36) (hoc : b ≠ 8) :
    finishInteger parse size ptr (withDigits (afterSign b sign) n [], rest) = .ok (false, .none, rest) := by
  simp [finishInteger, withDigits, afterSign, skip, hrn, hoc]

theorem finish_zero (hn : 0 < n) : finishInteger parse size ptr (withDigits (afterSign 8 sign) n [], rest) =
      .ok (true, ⟨sign.toList.length + n, 1, 1, [storeOf ptr size 0]⟩, rest) := by
  simp [finishInteger, withDigits, afterSign, skip, hn]

end

/-! ### A string and a stream -/

def NoNumber (base : Nat) (body : List UInt8) : Prop :=
  (splitSign body).1 = none ∧ body.takeWhile (isDigit (codeBase base body)) = []

instance (base : Nat) (body : List UInt8) : Decidable (NoNumber base body) := inferInstanceAs (Decidable (_ ∧ _))

def digitsAfter (base width : Nat) (sign : Option UInt8) (rest : List UInt8) : List UInt8 :=
  digitsOf (codeBase base rest) (limit width - sign.toList.length) rest

/-- After the sign there is a number with at least one digit after the prefix, and its value is in range. An octal number is
    followed by some character, and it does not fill its width. -/
def WholeNumber (parse : Parse) (width : Nat) (sign : Option UInt8) (rest : List UInt8) : Prop :=
  value (codeBase parse.base rest) (digitsAfter parse.base width sign rest) ≤ parse.max ∧
    if codeBase parse.base rest = 8 then
      2 ≤ rest.length ∧ sign.toList.length + 1 + (rest.tail.takeWhile (isDigit 8)).length < limit width
    else digitsAfter parse.base width sign rest ≠ []

instance (parse : Parse) (width : Nat) (sign : Option UInt8) (rest : List UInt8) :
    Decidable (WholeNumber parse width sign rest) := inferInstanceAs (Decidable (_ ∧ _))

def numberTakes (base width : Nat) (body : List UInt8) : Option Nat :=
  if NoNumber base body then none
  else some ((splitSign body).1.toList.length + codePrefix (codeBase base (splitSign body).2) (splitSign body).2 +
    (digitsAfter base width (splitSign body).1 (splitSign body).2).length)

def CalmNumber (parse : Parse) (width : Nat) (body : List UInt8) : Prop :=
  NoNumber parse.base body ∨ WholeNumber parse width (splitSign body).1 (splitSign body).2

instance (parse : Parse) (width : Nat) (body : List UInt8) : Decidable (CalmNumber parse width body) :=
  inferInstanceAs (Decidable (_ ∨ _))

section
variable {base width maxLength : Nat} {body rest : List UInt8} {sign : Option UInt8}

theorem found_body (stop : Option UInt8) (rewinds : Bool) (hspa : body.takeWhile isSpace = [])
    (hsp : splitSign body = (sign, rest)) :
    found stop rewinds base maxLength body =
      if sign ≠ none ∧ maxLength = 1 then (afterSign base sign, rest)
      else foundBase stop rewinds maxLength (afterSign base sign) rest := by
  have hbo : body.dropWhile isSpace = body := by
    have := takeWhile_append_dropWhile (p := isSpace) (l := body)
    rwa [hspa] at this
  rw [found, hspa, hbo]
  unfold splitSign at hsp
  split at hsp
  · cases hsp
    rfl
  · rename_i c text
    rw [foundSign]
    split at hsp
    · rename_i hc
      cases hsp
      rw [if_pos hc]
      by_cases hone : maxLength = 1
      · rw [if_pos hone, if_pos ⟨by simp, hone⟩]
        rfl
      · rw [if_neg hone, if_neg (fun hbt => hone hbt.2)]
        rfl
    · rename_i hc
      cases hsp
      rw [if_neg hc, if_neg (fun hbt => hbt.1 rfl)]
      rfl

theorem foundBase_string (rest : List UInt8) : foundBase (some 0) false maxLength (afterSign base sign) rest =
    foundPrefix false maxLength (afterSign (codeBase base rest) sign) rest := by
  rw [foundBase]
  have hbs : baseOf (some 0) (afterSign base sign).base rest = some (codeBase base rest) := baseOf_string base rest
  rw [hbs]
  rfl

/-- The base of a number in a stream is known, unless the end comes too soon. -/
theorem foundBase_stream (h : base = 0 → rest ≠ [] ∧ rest ≠ [48]) :
    foundBase none true maxLength (afterSign base sign) rest =
      foundPrefix true maxLength (afterSign (codeBase base rest) sign) rest := by
  have hbs : baseOf none (afterSign base sign).base rest = some (codeBase base rest) := by
    by_cases hzr : base = 0
    · obtain ⟨hnil, hsng⟩ := h hzr
      match rest, hnil, hsng with
      | [c], _, hsng =>
        have hc : c ≠ 48 := fun hc => hsng (by rw [hc])
        simp [Scan.baseOf, codeBase, afterSign, hzr, hc]
      | c :: x :: text, _, _ =>
        by_cases hc : c = 48 <;> simp [Scan.baseOf, codeBase, afterSign, hzr, hc, startsX]
    · cases rest <;> simp [Scan.baseOf, codeBase, afterSign, hzr]
  rw [foundBase, hbs]
  rfl

theorem foundBase_unknown (h : rest = [] ∨ rest = [48]) :
    foundBase none true maxLength (afterSign 0 sign) rest = (afterSign 0 sign, []) := by
  rcases h with rfl | rfl <;> simp [foundBase, Scan.baseOf, afterSign]

theorem takeWhile_ne_nil_of_codePrefix {b : Nat} (hb : 0 < b) (hpos : 0 < codePrefix b rest) :
    rest.takeWhile (isDigit b) ≠ [] := by
  cases rest with
  | nil => exact absurd hpos (Nat.lt_irrefl 0)
  | cons c text =>
    rw [codePrefix_cons] at hpos
    have hc : c = 48 := by
      by_contra hc
      rw [if_neg hc] at hpos
      exact Nat.lt_irrefl 0 hpos
    simp [hc, isDigit_zero hb]

theorem digitsOf_eq_nil_iff {b room : Nat} (hrm : 0 < room) (hzr : codePrefix b rest = 0) :
    digitsOf b room rest = [] ↔ rest.takeWhile (isDigit b) = [] := by
  rw [digitsOf, hzr, drop_zero, Nat.sub_zero, Stdlib.takeWhile_eq_nil_iff, Stdlib.takeWhile_eq_nil_iff]
  cases rest with
  | nil => simp
  | cons c text =>
    obtain ⟨n, rfl⟩ : ∃ n, room = n + 1 := ⟨room - 1, by omega⟩
    simp

/-- There is nothing of a number exactly if there is no sign, no prefix and no digit. -/
theorem noNumber_iff {room b n : Nat} {digits} (hsp : splitSign body = (sign, rest))
    (hb : codeBase base rest = b) (hpos : 0 < b) (hn : codePrefix b rest = n) (hdg : digitsOf b room rest = digits)
    (hrm : 0 < room) : NoNumber base body ↔ sign = none ∧ n = 0 ∧ digits = [] := by
  obtain ⟨-, -, hbo⟩ := splitSign_parts hsp
  rw [NoNumber, hsp]
  refine and_congr_right fun hsi => ?_
  rw [← hbo hsi, hb]
  subst hn hdg
  constructor
  · intro hnil
    have hzr : codePrefix b rest = 0 := Nat.eq_zero_of_not_pos fun h => takeWhile_ne_nil_of_codePrefix hpos h hnil
    exact ⟨hzr, (digitsOf_eq_nil_iff hrm hzr).mpr hnil⟩
  · rintro ⟨hzr, hnil⟩
    exact (digitsOf_eq_nil_iff hrm hzr).mp hnil

end

structure Parse.Regular (parse : Parse) : Prop where
  base : parse.base = 0 ∨ parse.base = 10 ∨ parse.base = 16
  negation : ∀ n, n ≤ parse.max → ∃ x, parse.negation n = .ok x
  zero : parse.negation 0 = .ok 0

theorem IntSpecifier.regular (specifier : IntSpecifier) : specifier.parse.Regular := by
  have hsg : ∀ base, base = 0 ∨ base = 10 ∨ base = 16 → (signedParse base).Regular := by
    intro base hbs
    refine ⟨hbs, ?_, rfl⟩
    intro n _
    have hne : (n : Int) ≠ -2 ^ 63 := by omega
    exact ⟨-n, by simp [signedParse]⟩
  have huni : ∀ base, base = 0 ∨ base = 10 ∨ base = 16 → (unsignedParse base).Regular := by
    intro base hbs
    exact ⟨hbs, fun n _ => ⟨_, rfl⟩, rfl⟩
  cases specifier with
  | d => exact hsg 10 (by decide)
  | i => exact hsg 0 (by decide)
  | u => exact huni 10 (by decide)
  | x | X => exact huni 16 (by decide)

section
variable {parse : Parse} {width size ptr : Nat} {body rest : List UInt8} {sign : Option UInt8}

section
variable (h : parse.Regular)
include h

theorem Parse.Regular.range (rest : List UInt8) : 2 ≤ codeBase parse.base rest ∧ codeBase parse.base rest ≤ 36 := by
  have hbs := h.base
  exact codeBase_range (by omega) rest

theorem Parse.Regular.signed {n : Nat} (hn : n ≤ parse.max) (sign : Option UInt8) :
    ∃ x, (if sign = some 45 then parse.negation n else .ok (n : Int)) = .ok x := by
  by_cases hmn : sign = some 45
  · rw [if_pos hmn]
    exact h.negation n hn
  · rw [if_neg hmn]
    exact ⟨_, rfl⟩

theorem sign_compared (hsp : splitSign body = (sign, rest)) (hsi : sign ≠ none)
    (hone : limit width = 1) (takes : Option Nat) :
    Compared body (CalmNumber parse width body) takes (finishInteger parse size ptr (afterSign parse.base sign, rest))
      (finishInteger parse size ptr (afterSign parse.base sign, rest)) := by
  obtain ⟨hlen, -, -⟩ := splitSign_parts hsp
  have hsgl : sign.toList.length = 1 := by
    cases sign with
    | none => exact absurd rfl hsi
    | some c => rfl
  refine .parts ?_ ?_
  · rw [CalmNumber, NoNumber, hsp]
    rintro (⟨hnn, -⟩ | ⟨-, hwh⟩)
    · exact hsi hnn
    · split_ifs at hwh
      · omega
      · exact hwh (by simp [digitsAfter, digitsOf, hone, hsgl])
  · by_cases hzr : parse.base = 0
    · simp [finishInteger, afterSign, hzr, Outcome.effect, Alike]
    · have hbs := h.base
      have hrn : 2 ≤ parse.base ∧ parse.base ≤ 36 := by omega
      have hnn : finishInteger parse size ptr (afterSign parse.base sign, rest) = _ :=
        finish_none (n := 0) hrn (show parse.base ≠ 8 by omega)
      rw [hnn]
      rintro ⟨-, -, hsm⟩
      simp only [Effect.none] at hsm
      omega

theorem number_compared {b n : Nat} {digits} (hsp : splitSign body = (sign, rest))
    (hlt : sign.toList.length < limit width) (hb : codeBase parse.base rest = b) (hn : codePrefix b rest = n)
    (hdg : digitsAfter parse.base width sign rest = digits) (hoc : b ≠ 8) :
    Compared body (CalmNumber parse width body) (numberTakes parse.base width body)
      (finishInteger parse size ptr (foundPrefix false (limit width) (afterSign b sign) rest))
      (finishInteger parse size ptr (foundPrefix false (limit width) (afterSign b sign) rest)) := by
  obtain ⟨hlen, hdr, -⟩ := splitSign_parts hsp
  have hrn : 2 ≤ b ∧ b ≤ 36 := hb ▸ h.range rest
  have hle : n ≤ rest.length := hn ▸ codePrefix_le b rest
  have hdg' : digitsOf b (limit width - sign.toList.length) rest = digits := by rw [← hdg, digitsAfter, hb]
  have hnb := noNumber_iff hsp hb (by omega) hn hdg' (by omega)
  have hcm : CalmNumber parse width body ↔ NoNumber parse.base body ∨ value b digits ≤ parse.max ∧ digits ≠ [] := by
    rw [CalmNumber, hsp, WholeNumber, hb, hdg, if_neg hoc]
  by_cases hcut : 0 < n ∧ limit width ≤ sign.toList.length + n
  · obtain ⟨hcs, hb', hlen'⟩ := foundPrefix_cut (p := afterSign b sign) false rfl rfl hlt (hn ▸ hcut.1) (hn ▸ hcut.2)
    refine .parts ?_ ?_
    · have hrm : limit width - sign.toList.length - n = 0 := by omega
      have hnil : digits = [] := by
        rw [← hdg', digitsOf, hn, hrm]
        rfl
      rw [hcm, hnb]
      rintro (⟨-, hzr, -⟩ | ⟨-, hne⟩)
      · omega
      · exact hne hnil
    · rw [← Prod.mk.eta (p := foundPrefix false _ _ _), finish_cut (by rw [hb']; exact hrn) hcs hlen']
      exact not_alike_error _
  · have hft : 0 < codePrefix b rest → sign.toList.length + codePrefix b rest < limit width := by
      rw [hn]
      omega
    have hfd := foundPrefix_limited (p := afterSign b sign) rfl hft hdg'
    have hts : numberTakes parse.base width body =
        if NoNumber parse.base body then none else some (sign.toList.length + n + digits.length) := by
      rw [numberTakes, hsp, hb, hn, hdg]
    rw [hfd, hts, show codePrefix (afterSign b sign).base rest = n from hn]
    by_cases hnil : digits = []
    · rw [hnil, finish_none hrn hoc]
      by_cases hno : NoNumber parse.base body
      · obtain ⟨hsi, hzr, -⟩ := hnb.mp hno
        rw [if_pos hno, hzr]
        refine .stops (.inl hno) (.refl _) ?_
        simp [hlen, hsi, Effect.none]
      · refine .parts (fun hyes => (hcm.mp hyes).elim hno fun hwh => hwh.2 hnil) ?_
        -- what was read of the number is lost
        rintro ⟨-, -, hsm⟩
        rw [length_drop, hlen] at hsm
        simp only [Effect.none, length_nil] at hsm
        have hsi : sign.toList.length = 0 := by omega
        exact hno (hnb.mpr ⟨by simpa using hsi, by omega, hnil⟩)
    · have hno : ¬NoNumber parse.base body := fun hno => hnil (hnb.mp hno).2.2
      by_cases hmax : value b digits ≤ parse.max
      · obtain ⟨x, hx⟩ := h.signed hmax sign
        rw [finish_digits hrn hnil hmax hx, if_neg hno, ← hdr, ← Nat.add_assoc]
        refine .goesOn (hcm.mpr (.inr ⟨hmax, hnil⟩)) (.refl _) rfl ?_
        have hsub : digits.length ≤ (rest.drop n).length := by
          rw [← hdg', digitsOf, hn]
          exact ((takeWhile_sublist _).trans (take_sublist _ _)).length_le
        rw [length_drop] at hsub
        omega
      · rw [finish_large hrn hnil (Nat.lt_of_not_le hmax)]
        exact .parts (fun hyes => (hcm.mp hyes).elim hno fun hwh => hmax hwh.1) (not_alike_error _)

theorem octal_parts (hoc : codeBase parse.base rest = 8) : ∃ text, rest = 48 :: text ∧ codePrefix 8 rest = 1 := by
  have hbs := h.base
  by_cases hhd : rest.head? = some 48
  · cases rest with
    | nil => cases hhd
    | cons c text =>
      cases hhd
      exact ⟨text, rfl, by simp [codePrefix]⟩
  · rw [codeBase, if_neg hhd] at hoc
    split_ifs at hoc <;> omega

end

theorem takeWhile_take (q : UInt8 → Bool) (n : Nat) (text : List UInt8) :
    (text.take n).takeWhile q = (text.takeWhile q).take n := by
  induction text generalizing n with
  | nil => simp
  | cons c text ih =>
    cases n with
    | zero => simp
    | succ n =>
      rw [take_succ_cons]
      cases hc : q c with
      | true => rw [takeWhile_cons_of_pos hc, takeWhile_cons_of_pos hc, ih, take_succ_cons]
      | false => simp [hc]

theorem finish_octal {digits} (h : parse.Regular) (hmax : value 8 digits ≤ parse.max) {x : Int}
    (hx : (if sign = some 45 then parse.negation (value 8 digits) else .ok (value 8 digits : Nat)) = .ok x) :
    finishInteger parse size ptr (withDigits (afterSign 8 sign) 1 digits, rest) =
      .ok (true, ⟨sign.toList.length + 1 + digits.length, 1, 1, [storeOf ptr size x]⟩, rest) := by
  by_cases hnil : digits = []
  · subst hnil
    have hzr : x = 0 := by
      have hngt := h.zero
      by_cases hmn : sign = some 45
      · rw [if_pos hmn] at hx
        exact (Except.ok.inj (hngt.symm.trans hx)).symm
      · rw [if_neg hmn] at hx
        exact (Except.ok.inj hx).symm
    rw [finish_zero Nat.one_pos, hzr]
    rfl
  · exact finish_digits (by omega) hnil hmax hx

theorem finish_octal_large {digits} (hmax : ¬value 8 digits ≤ parse.max) :
    finishInteger parse size ptr (withDigits (afterSign 8 sign) 1 digits, rest) = .error .unwrap := by
  refine finish_large (by omega) ?_ (Nat.lt_of_not_le hmax)
  rintro rfl
  exact hmax (Nat.zero_le _)

/-- An octal number: in a stream the zero counts twice. -/
theorem octal_compared {text digits} (h : parse.Regular) (hsp : splitSign body = (sign, 48 :: text))
    (hoc : codeBase parse.base (48 :: text) = 8) (hne : text ≠ [])
    (hdg : text.takeWhile (isDigit 8) = digits) (hlt : sign.toList.length < limit width) :
    Compared body (CalmNumber parse width body) (numberTakes parse.base width body)
      (finishInteger parse size ptr (foundPrefix false (limit width) (afterSign 8 sign) (48 :: text)))
      (finishInteger parse size ptr (foundPrefix true (limit width) (afterSign 8 sign) (48 :: text))) := by
  obtain ⟨hlen, hdr, hbo⟩ := splitSign_parts hsp
  have hrn : 2 ≤ 8 ∧ 8 ≤ 36 := by omega
  have hpre : codePrefix 8 (48 :: text) = 1 := by simp [codePrefix]
  have hno : ¬NoNumber parse.base body := by
    rintro ⟨hsi, hnil⟩
    rw [hsp] at hsi
    rw [← hbo hsi, hoc, takeWhile_cons_of_pos (isDigit_zero (by omega))] at hnil
    cases hnil
  have haf : digitsAfter parse.base width sign (48 :: text) = digits.take (limit width - (sign.toList.length + 1)) := by
    rw [digitsAfter, digitsOf, hoc, hpre, drop_succ_cons, drop_zero, takeWhile_take, hdg, Nat.sub_sub]
  have hcm : CalmNumber parse width body ↔ value 8 (digitsAfter parse.base width sign (48 :: text)) ≤ parse.max ∧
      sign.toList.length + 1 + digits.length < limit width := by
    have hpos := length_pos_iff.mpr hne
    rw [CalmNumber, hsp]
    simp only [hno, false_or, WholeNumber, hoc, if_true, length_cons, tail_cons, hdg]
    omega
  by_cases hcut : limit width = sign.toList.length + 1
  · obtain ⟨hcs, hb, hlen'⟩ := foundPrefix_cut (p := afterSign 8 sign) true rfl rfl hlt
      (show 0 < codePrefix 8 (48 :: text) by omega) (show limit width ≤ sign.toList.length + codePrefix 8 _ by omega)
    refine .parts ?_ ?_
    · rw [hcm]
      omega
    · rw [← Prod.mk.eta (p := foundPrefix true _ _ _), finish_cut (by rw [hb]; exact hrn) hcs hlen']
      exact not_alike_error _
  · obtain ⟨room, hrm⟩ : ∃ room, limit width - (sign.toList.length + 1) = room + 1 :=
      ⟨limit width - (sign.toList.length + 1) - 1, by omega⟩
    have hsti : foundPrefix false (limit width) (afterSign 8 sign) (48 :: text) =
        (withDigits (afterSign 8 sign) 1 (digits.take (room + 1)), text.drop (digits.take (room + 1)).length) := by
      rw [foundPrefix, if_pos ⟨.inl rfl, rfl⟩, if_neg (by simp only [afterSign]; omega), if_neg (by simp [afterSign]),
        if_neg Bool.false_ne_true, foundDigits_skip 1 rfl, takeWhile_take]
      simp [afterSign, hrm, hdg]
    have hste : foundPrefix true (limit width) (afterSign 8 sign) (48 :: text) =
        (withDigits (afterSign 8 sign) 1 (48 :: digits.take room), text.drop (digits.take room).length) := by
      rw [foundPrefix, if_pos ⟨.inl rfl, rfl⟩, if_neg (by simp only [afterSign]; omega), if_neg (by simp [afterSign]),
        if_pos rfl, foundDigits_skip 1 rfl]
      simp only [afterSign, hrm, take_succ_cons]
      rw [takeWhile_cons_of_pos (isDigit_zero (by omega)), takeWhile_take]
      simp [hdg]
    rw [hsti, hste]
    rw [hrm] at haf
    rw [haf] at hcm
    have htx : digits.length ≤ text.length := hdg ▸ (takeWhile_sublist _).length_le
    by_cases hft : digits.length ≤ room
    · have htk : digits.take room = digits := take_of_length_le hft
      have htk' : digits.take (room + 1) = digits := take_of_length_le (Nat.le_succ_of_le hft)
      rw [htk'] at hcm haf
      rw [htk, htk']
      by_cases hmax : value 8 digits ≤ parse.max
      · obtain ⟨x, hx⟩ := h.signed hmax sign
        have hts : numberTakes parse.base width body = some (sign.toList.length + 1 + digits.length) := by
          rw [numberTakes, if_neg hno, hsp]
          simp [hoc, hpre, haf]
        have hlf : text.drop digits.length = body.drop (sign.toList.length + 1 + digits.length) := by
          rw [Nat.add_assoc, hdr, Nat.add_comm 1, drop_succ_cons]
        have hzr : value 8 (48 :: digits) = value 8 digits := value_zero_cons 8 _
        rw [finish_octal h hmax hx, finish_octal h (by rwa [hzr]) (by rwa [hzr]), hts, hlf]
        refine .goesOn (hcm.mpr ⟨hmax, by omega⟩) ⟨rfl, rfl, rfl⟩ rfl ?_
        rw [hlen, length_cons]
        omega
      · rw [finish_octal_large hmax]
        exact .parts (fun hyes => hmax (hcm.mp hyes).1) (fun hfa => hfa)
    · -- the zero that was put back takes the place of the last digit
      have htk : (digits.take room).length = room := length_take_of_le (by omega)
      have htk' : (digits.take (room + 1)).length = room + 1 := length_take_of_le (by omega)
      refine .parts (fun hyes => ?_) ?_
      · have := (hcm.mp hyes).2
        omega
      · by_cases hmax : value 8 (digits.take (room + 1)) ≤ parse.max
        · obtain ⟨x, hx⟩ := h.signed hmax sign
          by_cases hmax' : value 8 (48 :: digits.take room) ≤ parse.max
          · obtain ⟨x', hx'⟩ := h.signed hmax' sign
            rw [finish_octal h hmax hx, finish_octal h hmax' hx']
            rintro ⟨-, -, hsm⟩
            dsimp only at hsm
            rw [htk, htk', length_drop, hlen, length_cons] at hsm
            omega
          · rw [finish_octal_large hmax']
            exact not_alike_error _
        · rw [finish_octal_large hmax]
          exact fun hfa => hfa

theorem not_calmNumber_unknown (hsp : splitSign body = (sign, rest)) (hzr : parse.base = 0) (hne : body ≠ [])
    (hrs : rest = [] ∨ rest = [48]) : ¬CalmNumber parse width body := by
  obtain ⟨-, -, hbo⟩ := splitSign_parts hsp
  rw [CalmNumber, NoNumber, hsp, hzr]
  rintro (⟨hsi, hnil⟩ | ⟨-, hwh⟩)
  · rcases hrs with rfl | rfl
    · exact hne (hbo hsi).symm
    · rw [← hbo hsi] at hnil
      exact absurd hnil (by decide)
  · rw [hzr] at hwh
    rcases hrs with rfl | rfl
    · simp [codeBase, digitsAfter, digitsOf] at hwh
    · simp [codeBase, startsX] at hwh

theorem integer_compared (h : parse.Regular) (hspa : body.takeWhile isSpace = []) (hne : body ≠ []) :
    Compared body (CalmNumber parse width body) (numberTakes parse.base width body)
      (integerOut (some 0) false parse width size ptr body) (integerOut none true parse width size ptr body) := by
  obtain ⟨sign, rest, hsp⟩ : ∃ sign rest, splitSign body = (sign, rest) := ⟨_, _, rfl⟩
  rw [integerOut_eq, integerOut_eq, found_body _ _ hspa hsp, found_body _ _ hspa hsp]
  by_cases hone : sign ≠ none ∧ limit width = 1
  · rw [if_pos hone, if_pos hone]
    exact sign_compared h hsp hone.1 hone.2 _
  · have hlt : sign.toList.length < limit width := by
      have hpos := limit_pos width
      cases sign with
      | none => exact hpos
      | some c =>
        have : limit width ≠ 1 := fun heq => hone ⟨by simp, heq⟩
        simp only [Option.toList_some, length_singleton]
        omega
    rw [if_neg hone, if_neg hone, foundBase_string]
    by_cases hunk : parse.base = 0 ∧ (rest = [] ∨ rest = [48])
    · obtain ⟨hzr, hrs⟩ := hunk
      rw [hzr, foundBase_unknown hrs]
      refine .parts (not_calmNumber_unknown hsp hzr hne hrs) ?_
      exact not_alike_error _
    · have hkn := fun hzr =>
        not_or.mp fun hrs => hunk ⟨hzr, hrs⟩
      rw [foundBase_stream hkn]
      by_cases hoc : codeBase parse.base rest = 8
      · obtain ⟨text, rfl, -⟩ := octal_parts h hoc
        have htx : text ≠ [] := by
          rintro rfl
          have hbs := h.base
          have hzr : parse.base = 0 := by
            by_contra hbs'
            rw [codeBase, if_pos hbs'] at hoc
            omega
          exact (hkn hzr).2 rfl
        rw [hoc]
        exact octal_compared h hsp hoc htx rfl hlt
      · rw [foundPrefix_rewinds (fun hbt => hoc hbt.1) true]
        exact number_compared h hsp hlt rfl rfl rfl hoc

end

end TouchHLE.Libc.Scanf
