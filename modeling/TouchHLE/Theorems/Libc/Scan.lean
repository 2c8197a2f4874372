import TouchHLE.Libc.Stdlib
import TouchHLE.Spec.Numeral

/-! What the closure of `str_to_int_inner_generic` finds in a text, for any subject: the end of a text is noticed or is
    the terminator of a string, and what is put back is delivered again or not. -/

namespace TouchHLE.Libc.Stdlib
open Lib Numeral Reader Spec List

variable {σ : Type} {r : Subject σ} {stop : Option UInt8} {rewinds : Bool} {R : Nat → Nat → List UInt8 → σ → Prop}
  {k offset maxLength fuel : Nat} {rest : List UInt8} {s : σ} {p : Scan}

theorem isWhitespace_eq : isWhitespace = isSpace := by
  funext c
  rw [Bool.eq_iff_iff]
  simp only [isWhitespace, isSpace, mem_cons, not_mem_nil, or_false, decide_eq_true_eq, Bool.or_eq_true,
    beq_iff_eq, UInt8.le_iff_toNat_le, ← UInt8.toNat_inj, UInt8.reduceToNat]
  omega

def Ends (stop : Option UInt8) (rewinds : Bool) : Prop := stop = some 0 ∧ rewinds = false ∨ stop = none ∧ rewinds = true

theorem Ends.zero (h : Ends stop rewinds) {c} (hc : stop = some c) : c = 0 := by
  rcases h with ⟨rfl, -⟩ | ⟨rfl, -⟩
  · exact (Option.some.inj hc).symm
  · cases hc

theorem Ends.place (h : Ends stop rewinds) (hno : stop = none) : rewinds = true := by
  rcases h with ⟨rfl, -⟩ | ⟨-, h⟩
  · cases hno
  · exact h

theorem isDigit_nul (base : Nat) : isDigit base 0 = false := rfl

namespace Scan

def digitsIn (maxLength : Nat) (p : Scan) (text : List UInt8) : List UInt8 :=
  (text.take (maxLength - p.len)).takeWhile (isDigit p.base)

def foundDigits (maxLength : Nat) (p : Scan) (text : List UInt8) : Scan × List UInt8 :=
  ({ p with chars := p.chars ++ digitsIn maxLength p text, len := p.len + (digitsIn maxLength p text).length },
    text.drop (digitsIn maxLength p text).length)

def skip (p : Scan) (n : Nat) : Scan := { p with len := p.len + n, prefixLength := p.prefixLength + n }

def foundX (maxLength : Nat) (p : Scan) : List UInt8 → Scan × List UInt8
  | [] => (p, [])
  | x :: text =>
    if x = 120 ∨ x = 88 then
      if p.len + 1 = maxLength then ({ p with len := p.len + 1 }, text) else foundDigits maxLength (p.skip 1) text
    else foundDigits maxLength p (x :: text)

def foundPrefix (rewinds : Bool) (maxLength : Nat) (p : Scan) : List UInt8 → Scan × List UInt8
  | [] => (p, [])
  | c :: text =>
    if (p.base = 8 ∨ p.base = 16) ∧ c = 48 then
      if p.len + 1 = maxLength then ({ p with len := p.len + 1 }, text)
      else if p.base = 16 then foundX maxLength (p.skip 1) text
      else foundDigits maxLength (p.skip 1) (if rewinds then c :: text else text)
    else foundDigits maxLength p (c :: text)

/-- The base of a number, if enough of it is there to tell. -/
def baseOf (stop : Option UInt8) (base : Nat) : List UInt8 → Option Nat
  | [] => if base ≠ 0 then some base else stop.map fun _ => 10
  | c :: text =>
    if base ≠ 0 then some base
    else if c = 48 then (next stop text).map fun x => if x = 120 ∨ x = 88 then 16 else 8
    else some 10

def foundBase (stop : Option UInt8) (rewinds : Bool) (maxLength : Nat) (p : Scan) (text : List UInt8) : Scan × List UInt8 :=
  match baseOf stop p.base text with
  | none => (p, [])
  | some base => foundPrefix rewinds maxLength { p with base } text

def foundSign (stop : Option UInt8) (rewinds : Bool) (maxLength : Nat) (p : Scan) : List UInt8 → Scan × List UInt8
  | [] => foundBase stop rewinds maxLength p []
  | c :: text =>
    if c = 43 ∨ c = 45 then
      if maxLength = p.len + 1 then ({ p.skip 1 with sign := some c }, text)
      else foundBase stop rewinds maxLength { p.skip 1 with sign := some c } text
    else foundBase stop rewinds maxLength p (c :: text)

def found (stop : Option UInt8) (rewinds : Bool) (base maxLength : Nat) (text : List UInt8) : Scan × List UInt8 :=
  foundSign stop rewinds maxLength ⟨(text.takeWhile isSpace).length, 0, none, 0, [], base⟩ (text.dropWhile isSpace)

end Scan

theorem countWhitespace_spec (h : r.Reads stop rewinds R) (hend : Ends stop rewinds) (offset : Nat) :
    ∀ (rest : List UInt8) {fuel count : Nat} {s : σ}, R (k + 1) count rest s → rest.length < fuel →
      ∃ s', (countWhitespace r offset fuel count s =
          .ok (.error (count + (rest.takeWhile isSpace).length - offset), s') ∧ stop = none ∧
            rest.dropWhile isSpace = [] ∧ R k (count + (rest.takeWhile isSpace).length) [] s') ∨
        (countWhitespace r offset fuel count s = .ok (.ok (count + (rest.takeWhile isSpace).length - offset), s') ∧
            R (k + 1) (count + (rest.takeWhile isSpace).length) (rest.dropWhile isSpace) s') := by
  intro rest
  induction rest with
  | nil =>
    intro fuel count s hs hfl
    obtain ⟨fuel, rfl⟩ : ∃ n, fuel = n + 1 := ⟨fuel - 1, by omega⟩
    obtain ⟨s', hget, hs', hbc⟩ := h.nil hs
    cases hstp : stop with
    | none =>
      refine ⟨s', .inl ⟨?_, rfl, rfl, hs'⟩⟩
      simp [countWhitespace, hget, hstp]
    | some c =>
      obtain rfl := hend.zero hstp
      obtain ⟨s'', hun, hs''⟩ := hbc 0 hstp
      refine ⟨s'', .inr ⟨?_, hs''⟩⟩
      simp [countWhitespace, hget, hstp, hun, isWhitespace_eq, isSpace]
  | cons c rest ih =>
    intro fuel count s hs hfl
    obtain ⟨fuel, rfl⟩ : ∃ n, fuel = n + 1 := ⟨fuel - 1, by omega⟩
    obtain ⟨s₁, hget, hs₁⟩ := h.cons hs
    cases hc : isSpace c with
    | true =>
      obtain ⟨s', hcn⟩ := ih hs₁ (by simpa using hfl)
      refine ⟨s', ?_⟩
      simpa [countWhitespace, hget, isWhitespace_eq, hc, Nat.add_assoc, Nat.add_comm 1] using hcn
    | false =>
      obtain ⟨s', hun, hs'⟩ := h.back hs hs₁
      refine ⟨s', .inr ⟨?_, ?_⟩⟩
      · simp [countWhitespace, hget, isWhitespace_eq, hc, hun]
      · simpa [hc] using hs'

namespace Scan

def Gives (R : Nat → Nat → List UInt8 → σ → Prop) (k offset : Nat) (x : Except Panic (Scan × σ))
    (found : Scan × List UInt8) : Prop :=
  ∃ s', x = .ok (found.1, s') ∧ R k (found.1.index offset) found.2 s'

def Counted (p : Scan) : Prop := p.len = p.prefixLength + p.chars.length

theorem index_skip (p : Scan) (n : Nat) : (p.skip n).index offset = p.index offset + n := by
  simp [index, skip, Nat.add_assoc]

theorem foundDigits_nil : foundDigits maxLength p [] = (p, []) := by
  simp [foundDigits, digitsIn]

theorem foundDigits_of_not {c} (hc : isDigit p.base c = false) :
    foundDigits maxLength p (c :: rest) = (p, c :: rest) := by
  have hnil : digitsIn maxLength p (c :: rest) = [] := by
    unfold digitsIn
    cases maxLength - p.len with
    | zero => rfl
    | succ n => simp [hc]
  simp [foundDigits, hnil]

def push (p : Scan) (c : UInt8) : Scan := { p with chars := p.chars ++ [c], len := p.len + 1 }

theorem foundDigits_cons {c} (hc : isDigit p.base c = true) (hlen : p.len < maxLength) :
    foundDigits maxLength p (c :: rest) = foundDigits maxLength (p.push c) rest := by
  have hdg : digitsIn maxLength p (c :: rest) = c :: digitsIn maxLength (p.push c) rest := by
    obtain ⟨n, hn⟩ : ∃ n, maxLength - p.len = n + 1 := ⟨maxLength - p.len - 1, by omega⟩
    have hn' : maxLength - (p.push c).len = n := by
      simp only [push]
      omega
    rw [digitsIn, digitsIn, hn, hn', take_succ_cons, takeWhile_cons_of_pos hc]
    rfl
  simp [foundDigits, hdg, push, Nat.add_assoc, Nat.add_comm 1]

theorem foundDigits_full (hlen : p.len = maxLength) : foundDigits maxLength p rest = (p, rest) := by
  subst hlen
  simp [foundDigits, digitsIn]

theorem digits_gives (h : r.Reads stop rewinds R) (hend : Ends stop rewinds) :
    ∀ (rest : List UInt8) {fuel : Nat} {p : Scan} {s : σ}, R (k + 1) (p.index offset) rest s → rest.length < fuel →
      p.Counted → p.len < maxLength → p.base ≤ 36 →
      Gives R k offset (digits r offset maxLength fuel p s) (foundDigits maxLength p rest) := by
  intro rest
  induction rest with
  | nil =>
    intro fuel p s hs hfl hcn hlen hbs
    obtain ⟨fuel, rfl⟩ : ∃ n, fuel = n + 1 := ⟨fuel - 1, by omega⟩
    obtain ⟨s', hget, hs', hbc⟩ := h.nil hs
    rw [foundDigits_nil]
    cases hstp : stop with
    | none =>
      refine ⟨s', ?_, hs'⟩
      simp [digits, hget, hstp]
    | some c =>
      obtain rfl := hend.zero hstp
      obtain ⟨s'', hun, hs''⟩ := hbc 0 hstp
      refine ⟨s'', ?_, h.mono hs''⟩
      have hcs : p.chars.length = p.len - p.prefixLength := by
        unfold Counted at hcn
        omega
      simp [digits, hget, hstp, charIsDigit, Nat.not_lt.mpr hbs, isDigit_nul, hun, hcs]
  | cons c rest ih =>
    intro fuel p s hs hfl hcn hlen hbs
    obtain ⟨fuel, rfl⟩ : ∃ n, fuel = n + 1 := ⟨fuel - 1, by omega⟩
    obtain ⟨s₁, hget, hs₁⟩ := h.cons hs
    cases hc : isDigit p.base c with
    | false =>
      obtain ⟨s', hun, hs'⟩ := h.back hs hs₁
      have hcs : p.chars.length = p.len - p.prefixLength := by
        unfold Counted at hcn
        omega
      rw [foundDigits_of_not hc]
      refine ⟨s', ?_, h.mono hs'⟩
      simp [digits, hget, charIsDigit, Nat.not_lt.mpr hbs, hc, hun, hcs]
    | true =>
      have hs₁' : R (k + 1) ((p.push c).index offset) rest s₁ := hs₁
      have hcn' : (p.push c).Counted := by
        unfold Counted at hcn ⊢
        simp only [push, length_append, length_singleton]
        omega
      rw [foundDigits_cons hc hlen]
      by_cases hfu : p.len + 1 = maxLength
      · rw [foundDigits_full hfu]
        refine ⟨s₁, ?_, h.mono hs₁'⟩
        simp [digits, hget, charIsDigit, Nat.not_lt.mpr hbs, hc, hfu, push]
      · obtain ⟨s', hloo, hs'⟩ := ih hs₁' (by simpa using hfl) hcn'
          (show p.len + 1 < maxLength by omega) hbs
        refine ⟨s', ?_, hs'⟩
        simpa [digits, hget, charIsDigit, Nat.not_lt.mpr hbs, hc, hfu, push] using hloo

theorem Counted.skip (h : p.Counted) (n : Nat) : (p.skip n).Counted := by
  unfold Counted at h ⊢
  simp only [Scan.skip]
  omega

section
variable (h : r.Reads stop rewinds R) (hend : Ends stop rewinds) (hs : R (k + 1) (p.index offset) rest s)
  (hfl : rest.length < fuel) (hcn : p.Counted) (hlen : p.len < maxLength) (hbs : p.base ≤ 36)
include h hend hs hfl hcn hlen hbs

theorem skipX_gives :
    Gives R k offset (andThen (skipX r offset maxLength p s) fun p s => digits r offset maxLength fuel p s)
      (foundX maxLength p rest) := by
  cases rest with
  | nil =>
    obtain ⟨s', hget, hs', hbc⟩ := h.nil hs
    cases hstp : stop with
    | none =>
      refine ⟨s', ?_, hs'⟩
      simp [andThen, skipX, hget, hstp, foundX]
    | some c =>
      obtain rfl := hend.zero hstp
      obtain ⟨s'', hun, hs''⟩ := hbc 0 hstp
      have hgv := digits_gives h hend [] hs'' hfl hcn hlen hbs
      rw [foundDigits_nil] at hgv
      simpa [andThen, skipX, hget, hstp, hun, foundX] using hgv
  | cons x text =>
    obtain ⟨s₁, hget, hs₁⟩ := h.cons hs
    by_cases hx : x = 120 ∨ x = 88
    · by_cases hfu : p.len + 1 = maxLength
      · refine ⟨s₁, ?_, ?_⟩
        · simp [andThen, skipX, hget, hx, hfu, foundX]
        · simpa [foundX, hx, hfu, index, Nat.add_assoc] using h.mono hs₁
      · rw [← index_skip] at hs₁
        have hgv := digits_gives h hend text hs₁ (show text.length < fuel by simp at hfl; omega) (hcn.skip 1)
          (show p.len + 1 < maxLength by omega) hbs
        rw [foundX, if_pos hx, if_neg hfu]
        simpa [andThen, skipX, hget, hx, hfu, skip] using hgv
    · obtain ⟨s', hun, hs'⟩ := h.back hs hs₁
      have hgv := digits_gives h hend (x :: text) hs' hfl hcn hlen hbs
      rw [foundX, if_neg hx]
      simpa [andThen, skipX, hget, hx, hun] using hgv

theorem skipPrefix_gives :
    Gives R k offset (andThen (skipPrefix r offset maxLength p s) fun p s => digits r offset maxLength fuel p s)
      (foundPrefix rewinds maxLength p rest) := by
  by_cases hpre : p.base = 8 ∨ p.base = 16
  · cases rest with
    | nil =>
      obtain ⟨s', hget, hs', hbc⟩ := h.nil hs
      cases hstp : stop with
      | none =>
        refine ⟨s', ?_, hs'⟩
        simp [andThen, skipPrefix, hpre, hget, hstp, foundPrefix]
      | some c =>
        obtain rfl := hend.zero hstp
        obtain ⟨s'', hun, hs''⟩ := hbc 0 hstp
        have hgv := digits_gives h hend [] hs'' hfl hcn hlen hbs
        rw [foundDigits_nil] at hgv
        simpa [andThen, skipPrefix, hpre, hget, hstp, hun, foundPrefix] using hgv
    | cons c text =>
      obtain ⟨s₁, hget, hs₁⟩ := h.cons hs
      by_cases hc : c = 48
      · have htx : text.length < fuel := by
          simp at hfl
          omega
        rw [foundPrefix, if_pos ⟨hpre, hc⟩]
        by_cases hfu : p.len + 1 = maxLength
        · refine ⟨s₁, ?_, ?_⟩
          · simp [andThen, skipPrefix, hpre, hget, hc, hfu]
          · simpa [hfu, index, Nat.add_assoc] using h.mono hs₁
        · have hlen' : (p.skip 1).len < maxLength := show p.len + 1 < maxLength by omega
          by_cases h16 : p.base = 16
          · rw [← index_skip] at hs₁
            have hgv := skipX_gives h hend hs₁ htx (hcn.skip 1) hlen' hbs
            simpa [andThen, skipPrefix, hget, hc, hfu, h16, skip] using hgv
          · obtain ⟨s', hun, hs'⟩ := h.again hs hs₁
            have hshr : (if rewinds then c :: text else text).length < fuel := by
              split
              · exact hfl
              · exact htx
            have hgv := digits_gives h hend _ hs' hshr (hcn.skip 1) hlen' hbs
            have h8 : p.base = 8 := hpre.resolve_right h16
            subst hc
            simpa [andThen, skipPrefix, h8, hget, hfu, hun, skip] using hgv
      · obtain ⟨s', hun, hs'⟩ := h.back hs hs₁
        have hgv := digits_gives h hend (c :: text) hs' hfl hcn hlen hbs
        rw [foundPrefix, if_neg (fun hbt => hc hbt.2)]
        simpa [andThen, skipPrefix, hpre, hget, hc, hun] using hgv
  · have hgv := digits_gives h hend rest hs hfl hcn hlen hbs
    have hfd : foundPrefix rewinds maxLength p rest = foundDigits maxLength p rest := by
      cases rest with
      | nil => rw [foundDigits_nil, foundPrefix]
      | cons c text => rw [foundPrefix, if_neg (fun hbt => hpre hbt.1)]
    rw [hfd]
    simpa [andThen, skipPrefix, hpre] using hgv

theorem detectBase_gives : Gives R k offset (andThen (detectBase r offset p s) fun p s =>
        andThen (skipPrefix r offset maxLength p s) fun p s => digits r offset maxLength fuel p s)
      (foundBase stop rewinds maxLength p rest) := by
  -- the rest of the closure, with a base that has been detected
  have goes : ∀ base s', base ≤ 36 → R (k + 1) (p.index offset) rest s' →
      Gives R k offset (andThen (skipPrefix r offset maxLength { p with base } s') fun p s =>
        digits r offset maxLength fuel p s) (foundPrefix rewinds maxLength { p with base } rest) := by
    intro base s' hbs' hs'
    exact skipPrefix_gives h hend hs' hfl hcn hlen hbs'
  by_cases hzr : p.base = 0
  · cases rest with
    | nil =>
      obtain ⟨s', hget, hs', hbc⟩ := h.nil hs
      cases hstp : stop with
      | none =>
        refine ⟨s', ?_, ?_⟩
        · simp [andThen, detectBase, hzr, hget, hstp, foundBase, baseOf]
        · simpa [foundBase, baseOf, hzr] using hs'
      | some c =>
        obtain rfl := hend.zero hstp
        obtain ⟨s'', hun, hs''⟩ := hbc 0 hstp
        simpa [andThen, detectBase, hzr, hget, hstp, hun, foundBase, baseOf] using goes 10 s'' (by omega) hs''
    | cons c text =>
      obtain ⟨s₁, hget, hs₁⟩ := h.cons hs
      by_cases hc : c = 48
      · obtain ⟨s₂, hget₂, hno, hso⟩ := h.peek hs₁
        cases hnx : next stop text with
        | none =>
          have htx : text = [] ∧ stop = none := by
            cases text with
            | nil => exact ⟨rfl, hnx⟩
            | cons x text => cases hnx
          refine ⟨s₂, ?_, ?_⟩
          · simp [andThen, detectBase, hzr, hget, hc, hget₂, hnx, foundBase, baseOf]
          · have hs₂ := hno hnx
            rw [htx.1] at hs₂
            simpa [foundBase, baseOf, hzr, hc, hnx] using h.place (hend.place htx.2) hs₂
        | some x =>
          obtain ⟨s₃, hun, hs₃⟩ := hso x hnx
          obtain ⟨s₄, hun₂, hs₄⟩ := h.back hs hs₃
          subst hc
          have hle : (if x = 120 ∨ x = 88 then 16 else 8) ≤ 36 := by
            split <;> omega
          simpa [andThen, detectBase, hzr, hget, hget₂, hnx, hun, hun₂, foundBase, baseOf] using goes _ s₄ hle hs₄
      · obtain ⟨s', hun, hs'⟩ := h.back hs hs₁
        simpa [andThen, detectBase, hzr, hget, hc, hun, foundBase, baseOf] using goes 10 s' (by omega) hs'
  · have hfd : foundBase stop rewinds maxLength p rest = foundPrefix rewinds maxLength p rest := by
      cases rest with
      | nil | cons c text => simp [foundBase, baseOf, hzr]
    rw [hfd]
    simpa [andThen, detectBase, hzr] using goes p.base s hbs hs

theorem maybeSign_gives :
    Gives R k offset (andThen (maybeSign r offset maxLength p s) fun p s => andThen (detectBase r offset p s) fun p s =>
        andThen (skipPrefix r offset maxLength p s) fun p s => digits r offset maxLength fuel p s)
      (foundSign stop rewinds maxLength p rest) := by
  cases rest with
  | nil =>
    obtain ⟨s', hget, hs', hbc⟩ := h.nil hs
    cases hstp : stop with
    | none =>
      have hfd : foundSign none rewinds maxLength p [] = (p, []) := by
        by_cases hzr : p.base = 0
        · simp [foundSign, foundBase, baseOf, hzr]
        · simp [foundSign, foundBase, baseOf, hzr, foundPrefix]
      rw [hfd]
      refine ⟨s', ?_, hs'⟩
      simp [andThen, maybeSign, hget, hstp]
    | some c =>
      obtain rfl := hend.zero hstp
      obtain ⟨s'', hun, hs''⟩ := hbc 0 hstp
      have hgv := detectBase_gives h hend hs'' hfl hcn hlen hbs
      simpa [andThen, maybeSign, hget, hstp, hun, foundSign] using hgv
  | cons c text =>
    obtain ⟨s₁, hget, hs₁⟩ := h.cons hs
    by_cases hc : c = 43 ∨ c = 45
    · rw [foundSign, if_pos hc]
      by_cases hfu : maxLength = p.len + 1
      · rw [if_pos hfu]
        refine ⟨s₁, ?_, ?_⟩
        · simp [andThen, maybeSign, hget, hc, hfu, skip]
        · rw [← index_skip] at hs₁
          exact h.mono hs₁
      · have htx : text.length < fuel := by
          simp at hfl
          omega
        have hgv := detectBase_gives h hend (p := { p.skip 1 with sign := some c }) (index_skip p 1 ▸ hs₁) htx
          (hcn.skip 1) (show p.len + 1 < maxLength by omega) hbs
        rw [if_neg hfu]
        simpa [andThen, maybeSign, hget, hc, Ne.symm hfu, skip] using hgv
    · obtain ⟨s', hun, hs'⟩ := h.back hs hs₁
      have hgv := detectBase_gives h hend hs' hfl hcn hlen hbs
      rw [foundSign, if_neg hc]
      simpa [andThen, maybeSign, hget, hc, hun] using hgv

end

theorem scan_gives (h : r.Reads stop rewinds R) (hend : Ends stop rewinds) {base : Nat} {text}
    (hs : R (k + 1) offset text s) (hfl : text.length < fuel) (hlen : 0 < maxLength) (hbs : base ≤ 36) :
    Gives R k offset (scan r fuel offset base maxLength s) (found stop rewinds base maxLength text) := by
  have hspc := countWhitespace_spec h hend offset text hs hfl
  obtain ⟨s', ⟨hcn, hstp, hnil, hs'⟩ | ⟨hcn, hs'⟩⟩ := hspc
  · have hfd : found stop rewinds base maxLength text = (⟨(text.takeWhile isSpace).length, 0, none, 0, [], base⟩, []) := by
      by_cases hzr : base = 0
      · simp [found, hnil, foundSign, foundBase, baseOf, hzr, hstp]
      · simp [found, hnil, foundSign, foundBase, baseOf, hzr, foundPrefix]
    rw [hfd]
    refine ⟨s', ?_, hs'⟩
    simp [scan, andThen, whitespace, countWhitespaceGeneric, hcn]
  · have hle : (text.dropWhile isSpace).length ≤ text.length := (dropWhile_sublist _).length_le
    have hgv := maybeSign_gives (p := ⟨(text.takeWhile isSpace).length, 0, none, 0, [], base⟩) h hend hs'
      (Nat.lt_of_le_of_lt hle hfl) rfl hlen hbs
    simpa [scan, andThen, whitespace, countWhitespaceGeneric, hcn, found] using hgv

end Scan

end TouchHLE.Libc.Stdlib
