import TouchHLE.Libc.Scanf
import TouchHLE.Theorems.Libc.Scan

/-! What each directive of a format does with a text, for any subject. The effect of a directive is what it adds to the
    variables of the loop; what is left of the text is what the subject delivers next. -/

namespace TouchHLE.Libc.Scanf
open Lib Stdlib Reader Spec List Progress Scan
variable {width : Nat}

variable {σ : Type} {r : Subject σ} {stop : Option UInt8} {rewinds : Bool} {R : Nat → Nat → List UInt8 → σ → Prop}
  {k fuel : Nat} {text : List UInt8} {s : σ} {o : Progress} {args : Nat → Nat}
variable {c : UInt8} {ptr size used : Nat}

structure Effect where
  advance : Nat
  matched : Int
  args : Nat
  stores : List Store
deriving DecidableEq

def Effect.none : Effect := ⟨0, 0, 0, []⟩

def Progress.apply (o : Progress) (e : Effect) : Progress :=
  ⟨o.srcCharIdx + e.advance, o.matchedArgs + e.matched, o.argIdx + e.args, o.stores ++ e.stores⟩

def Effect.after (e : Effect) (n : Nat) : Effect := { e with advance := n + e.advance }

theorem Progress.apply_none (o : Progress) : o.apply .none = o := by
  simp [apply, Effect.none]

theorem Progress.apply_after (o : Progress) (e : Effect) (n : Nat) : o.apply (e.after n) = (o.advance n).apply e := by
  simp [apply, Effect.after, advance, Nat.add_assoc]

abbrev Outcome := Except Stdlib.Panic (Bool × Effect × List UInt8)

def Done (R : Nat → Nat → List UInt8 → σ → Prop) (k : Nat) (o : Progress)
    (x : Except Stdlib.Panic (Bool × Progress × σ)) : Outcome → Prop
  | .error e => x = .error e
  | .ok (more, e, rest) => ∃ j s', x = .ok (more, o.apply e, s') ∧ R k j rest s' ∧
      (more = true → j = (o.apply e).srcCharIdx)

/-! ### White space and literal characters -/

theorem spaces_spec (h : r.Reads stop rewinds R) (hend : Ends stop rewinds) :
    ∀ (text : List UInt8) {fuel : Nat} {o : Progress} {s : σ}, R (k + 1) o.srcCharIdx text s → text.length < fuel →
      ∃ s', (spaces r fuel o s = .ok (false, o.advance (text.takeWhile isSpace).length, s') ∧
          text.dropWhile isSpace = [] ∧ stop = none ∧
          R k (o.srcCharIdx + (text.takeWhile isSpace).length) [] s') ∨
        (spaces r fuel o s = .ok (true, o.advance (text.takeWhile isSpace).length, s') ∧
          (text.dropWhile isSpace = [] → stop ≠ none) ∧
          R (k + 1) (o.srcCharIdx + (text.takeWhile isSpace).length) (text.dropWhile isSpace) s') := by
  intro text
  induction text with
  | nil =>
    intro fuel o s hs hfl
    obtain ⟨fuel, rfl⟩ : ∃ n, fuel = n + 1 := ⟨fuel - 1, by omega⟩
    obtain ⟨s', hget, hs', hbc⟩ := h.nil hs
    cases hstp : stop with
    | none =>
      refine ⟨s', .inl ⟨?_, rfl, rfl, hs'⟩⟩
      simp [spaces, hget, hstp, advance]
    | some c =>
      obtain rfl := hend.zero hstp
      obtain ⟨s'', hun, hs''⟩ := hbc 0 hstp
      refine ⟨s'', .inr ⟨?_, by simp, hs''⟩⟩
      simp [spaces, hget, hstp, hun, isWhitespace_eq, isSpace, advance]
  | cons c text ih =>
    intro fuel o s hs hfl
    obtain ⟨fuel, rfl⟩ : ∃ n, fuel = n + 1 := ⟨fuel - 1, by omega⟩
    obtain ⟨s₁, hget, hs₁⟩ := h.cons hs
    cases hc : isSpace c with
    | true =>
      obtain ⟨s', hspe⟩ := ih (o := o.advance 1) hs₁ (by simpa using hfl)
      refine ⟨s', ?_⟩
      simpa [spaces, hget, isWhitespace_eq, hc, advance, Nat.add_assoc, Nat.add_comm 1] using hspe
    | false =>
      obtain ⟨s', hun, hs'⟩ := h.back hs hs₁
      refine ⟨s', .inr ⟨?_, ?_, ?_⟩⟩
      · simp [spaces, hget, isWhitespace_eq, hc, hun, advance]
      · simp [hc]
      · simpa [hc] using hs'

def spaceOut (stop : Option UInt8) (text : List UInt8) : Outcome :=
  if text.dropWhile isSpace = [] ∧ stop = none then .error .unwrap
  else .ok (true, Effect.none.after (text.takeWhile isSpace).length, text.dropWhile isSpace)

def literalOut (stop : Option UInt8) (c : UInt8) (text : List UInt8) : Outcome :=
  match next stop text with
  | none => .error .unwrap
  | some cc => if c = cc then .ok (true, Effect.none.after 1, text.tail) else .ok (false, .none, text.tail)

theorem ordinary_space (h : r.Reads stop rewinds R) (hend : Ends stop rewinds) (hc : isSpace c = true)
    (hs : R (k + 1) o.srcCharIdx text s) (hfl : text.length < fuel) :
    Done R k o (ordinary r fuel c o s) (spaceOut stop text) := by
  obtain ⟨s', ⟨hspe, hnil, hstp, -⟩ | ⟨hspe, hso, hs'⟩⟩ := spaces_spec h hend text hs hfl
  · rw [spaceOut, if_pos ⟨hnil, hstp⟩]
    simp [Done, ordinary, isWhitespace_eq, hc, hspe]
  · rw [spaceOut, if_neg (fun hbt => hso hbt.1 hbt.2)]
    refine ⟨_, s', ?_, h.mono hs', fun _ => ?_⟩
    · rw [apply_after, apply_none]
      simp [ordinary, isWhitespace_eq, hc, hspe]
    · rw [apply_after, apply_none]
      rfl

theorem ordinary_literal (h : r.Reads stop rewinds R) (hc : isSpace c = false) (hzr : c ≠ 0)
    (hend : Ends stop rewinds) (hs : R (k + 1) o.srcCharIdx text s) :
    Done R k o (ordinary r fuel c o s) (literalOut stop c text) := by
  unfold literalOut
  cases text with
  | nil =>
    obtain ⟨s', hget, hs', -⟩ := h.nil hs
    rw [next_nil]
    cases hstp : stop with
    | none => simp [Done, ordinary, isWhitespace_eq, hc, hget, hstp]
    | some d =>
      obtain rfl := hend.zero hstp
      simp only [if_neg hzr]
      refine ⟨_, s', ?_, hs', by simp⟩
      simp [ordinary, isWhitespace_eq, hc, hget, hstp, hzr, apply_none]
  | cons d rest =>
    obtain ⟨s', hget, hs'⟩ := h.cons hs
    rw [next_cons]
    by_cases hd : c = d
    · simp only [if_pos hd]
      refine ⟨_, s', ?_, h.mono hs', fun _ => ?_⟩
      · rw [apply_after, apply_none]
        subst hd
        simp [ordinary, isWhitespace_eq, hc, hget]
      · rw [apply_after, apply_none]
        rfl
    · simp only [if_neg hd]
      refine ⟨_, s', ?_, h.mono hs', by simp⟩
      simp [ordinary, isWhitespace_eq, hc, hget, hd, apply_none]

def storeOf (ptr size : Nat) (value : Int) : Store := ⟨ptr, size, (value % 2 ^ (8 * size)).toNat⟩

def limit (width : Nat) : Nat := if width > 0 then width else 2 ^ 32 - 1

theorem limit_pos (width : Nat) : 0 < limit width := by
  unfold limit
  split <;> omega

def scanned (parse : Parse) (p : Scan) : Except Stdlib.Panic Int := do
  let value ← fromStrRadixUnwrap parse.max p.chars p.base
  if p.sign = some 45 then parse.negation value else .ok value

def integerOut (stop : Option UInt8) (rewinds : Bool) (parse : Parse) (width size ptr : Nat) (text : List UInt8) : Outcome :=
  let (p, rest) := found stop rewinds parse.base (limit width) text
  if ¬(2 ≤ p.base ∧ p.base ≤ 36) then .error .assertion
  else if p.len - p.prefixLength > 0 then
    match scanned parse p with
    | .error e => .error e
    | .ok value => .ok (true, ⟨p.whitespaceLen + p.len, 1, 1, [storeOf ptr size value]⟩, rest)
  else if p.base = 8 ∧ p.prefixLength > 0 then
    .ok (true, ⟨p.whitespaceLen + p.prefixLength, 1, 1, [storeOf ptr size 0]⟩, rest)
  else .ok (false, .none, rest)

section
variable {p : Scan} {maxLength base : Nat}

section
variable (h : p.prefixLength ≤ p.len)
include h

theorem foundDigits_prefixLength_le (text : List UInt8) :
    (foundDigits maxLength p text).1.prefixLength ≤ (foundDigits maxLength p text).1.len := by
  simp only [foundDigits]
  omega

theorem skip_prefixLength_le (n : Nat) : (p.skip n).prefixLength ≤ (p.skip n).len := by
  simp only [skip]
  omega

theorem foundX_prefixLength_le (text : List UInt8) :
    (foundX maxLength p text).1.prefixLength ≤ (foundX maxLength p text).1.len := by
  unfold foundX
  split
  · exact h
  · split
    · split
      · exact Nat.le_succ_of_le h
      · exact foundDigits_prefixLength_le (skip_prefixLength_le h 1) _
    · exact foundDigits_prefixLength_le h _

theorem foundPrefix_prefixLength_le (text : List UInt8) :
    (foundPrefix rewinds maxLength p text).1.prefixLength ≤ (foundPrefix rewinds maxLength p text).1.len := by
  unfold foundPrefix
  split
  · exact h
  · split
    · split
      · exact Nat.le_succ_of_le h
      · split
        · exact foundX_prefixLength_le (skip_prefixLength_le h 1) _
        · exact foundDigits_prefixLength_le (skip_prefixLength_le h 1) _
    · exact foundDigits_prefixLength_le h _

theorem foundBase_prefixLength_le (text : List UInt8) : (foundBase stop rewinds maxLength p text).1.prefixLength ≤
      (foundBase stop rewinds maxLength p text).1.len := by
  unfold foundBase
  split
  · exact h
  · rename_i base _
    exact foundPrefix_prefixLength_le (p := { p with base }) h text

end

theorem found_prefixLength_le (text : List UInt8) : (found stop rewinds base maxLength text).1.prefixLength ≤
    (found stop rewinds base maxLength text).1.len := by
  unfold found foundSign
  split
  · exact foundBase_prefixLength_le (Nat.le_refl 0) _
  · split
    · split
      · exact Nat.le_refl 1
      · exact foundBase_prefixLength_le (Nat.le_refl 1) _
    · exact foundBase_prefixLength_le (Nat.le_refl 0) _

end

theorem Progress.write_ok (o : Progress) (value : Int) (h : ptr + size ≤ 2 ^ 32) :
    o.write ptr size value = .ok { o with stores := o.stores ++ [storeOf ptr size value] } := if_pos h

theorem integer_done (h : r.Reads stop rewinds R) (hend : Ends stop rewinds) {parse}
    {modifier} (hsz : LengthModifier.size modifier = .ok size)
    (hptr : args o.argIdx + size ≤ 2 ^ 32) (hbs : parse.base ≤ 36) (hs : R (k + 1) o.srcCharIdx text s)
    (hfl : text.length < fuel) :
    Done R k o (integer r fuel args parse width modifier o s)
      (integerOut stop rewinds parse width size (args o.argIdx) text) := by
  obtain ⟨s', hsa, hs'⟩ := scan_gives h hend hs hfl (limit_pos width) hbs
  have hle : (found stop rewinds parse.base (limit width) text).1.prefixLength ≤ _ := found_prefixLength_le text
  unfold integerOut integer strToIntInnerGeneric
  rw [← limit, hsa, ok_bind]
  generalize found stop rewinds parse.base (limit width) text = q at *
  obtain ⟨p, rest⟩ := q
  dsimp only at hle hs' ⊢
  have hsor : ∀ value n, ((o.advance n).nextArg).write (args o.argIdx) size value =
      .ok ⟨o.srcCharIdx + n, o.matchedArgs, o.argIdx + 1, o.stores ++ [storeOf (args o.argIdx) size value]⟩ := by
    intro value n
    rw [write_ok _ _ hptr]
    rfl
  by_cases hrn : 2 ≤ p.base ∧ p.base ≤ 36
  · rw [if_neg (not_not.mpr hrn), if_neg (not_not.mpr hrn)]
    by_cases hlen : p.len - p.prefixLength > 0
    · rw [if_pos hlen, if_pos hlen, scanned]
      cases fromStrRadixUnwrap parse.max p.chars p.base with
      | error e => rfl
      | ok magnitude =>
        have hid : ∀ value, p.index o.srcCharIdx =
            (o.apply ⟨p.whitespaceLen + p.len, 1, 1, [storeOf (args o.argIdx) size value]⟩).srcCharIdx := by
          simp [apply, index, Nat.add_assoc]
        simp only [ok_bind]
        by_cases hmn : p.sign = some 45
        · rw [if_pos hmn, if_pos hmn]
          cases parse.negation magnitude with
          | error e => rfl
          | ok value =>
            refine ⟨_, s', ?_, hs', fun _ => hid value⟩
            simp only [ok_bind, hsz, hsor]
            rfl
        · rw [if_neg hmn, if_neg hmn]
          refine ⟨_, s', ?_, hs', fun _ => hid magnitude⟩
          simp only [ok_bind, hsz, hsor]
          rfl
    · rw [if_neg hlen, if_neg hlen]
      by_cases hoc : p.base = 8 ∧ p.prefixLength > 0
      · rw [if_pos hoc, if_pos hoc]
        refine ⟨_, s', ?_, hs', fun _ => ?_⟩
        · simp only [ok_bind, hsz, hsor]
          rfl
        · simp only [apply, index]
          omega
      · rw [if_neg hoc, if_neg hoc]
        refine ⟨_, s', ?_, hs', by simp⟩
        rw [apply_none]
        rfl
  · rw [if_pos hrn, if_pos hrn]
    rfl

def charStores (ptr : Nat) : List UInt8 → List Store
  | [] => []
  | c :: chars => storeOf ptr 1 c.toNat :: charStores (ptr + 1) chars

/-- As much of a text as a width allows, where some of it has been used up; a width of zero is no width. -/
def upTo (width used : Nat) (text : List UInt8) : List UInt8 := if width > 0 then text.take (width - used) else text

theorem upTo_cons (h : ¬(width > 0 ∧ used ≥ width)) : upTo width used (c :: text) = c :: upTo width (used + 1) text := by
  unfold upTo
  by_cases hwdt : width > 0
  · obtain ⟨n, hn⟩ : ∃ n, width - used = n + 1 := ⟨width - used - 1, by omega⟩
    have hn' : width - (used + 1) = n := by omega
    rw [if_pos hwdt, if_pos hwdt, hn, hn', take_succ_cons]
  · rw [if_neg hwdt, if_neg hwdt]

def stringRun (width used : Nat) (text : List UInt8) : List UInt8 := (upTo width used text).takeWhile fun c => !isSpace c

theorem stringRun_cons (h : ¬(width > 0 ∧ used ≥ width)) (hc : isSpace c = false) :
    stringRun width used (c :: text) = c :: stringRun width (used + 1) text := by
  rw [stringRun, upTo_cons h, takeWhile_cons_of_pos (by simp [hc]), stringRun]

theorem stringRun_stop (h : width > 0 ∧ used ≥ width ∨ isSpace c = true) : stringRun width used (c :: text) = [] := by
  by_cases hfu : width > 0 ∧ used ≥ width
  · simp [stringRun, upTo, hfu.1, Nat.sub_eq_zero_of_le hfu.2]
  · rw [stringRun, upTo_cons hfu, takeWhile_cons_of_neg (by simp [h.resolve_left hfu])]

def Progress.stored (o : Progress) (dst : Nat) (chars : List UInt8) : Progress :=
  { o with srcCharIdx := o.srcCharIdx + chars.length, stores := o.stores ++ charStores dst chars }

theorem Progress.stored_nil (o : Progress) (dst : Nat) : o.stored dst [] = o := by
  simp [stored, charStores]

theorem Progress.stored_cons (o : Progress) (dst : Nat) (c : UInt8) (chars : List UInt8) :
    o.stored dst (c :: chars) = ((o.stored dst [c]).stored (dst + 1) chars) := by
  simp [stored, charStores, Nat.add_assoc, Nat.add_comm 1]

theorem incrPtr_ok (h : ptr + 1 < 2 ^ 32) : incrPtr ptr = .ok (ptr + 1) := if_pos h

theorem stringLoop_spec (h : r.Reads stop rewinds R) (hend : Ends stop rewinds) :
    ∀ (text : List UInt8) {fuel : Nat} (dst written : Nat) (o : Progress) {s : σ}, R (k + 1) o.srcCharIdx text s →
      text.length < fuel → 0 ∉ text → dst + text.length < 2 ^ 32 →
      ∃ s', stringLoop r width fuel dst written o s =
          .ok (dst + (stringRun width written text).length, o.stored dst (stringRun width written text), s') ∧
        R k (o.srcCharIdx + (stringRun width written text).length) (text.drop (stringRun width written text).length) s' := by
  intro text
  induction text with
  | nil =>
    intro fuel dst written o s hs hfl hnul hrm
    obtain ⟨fuel, rfl⟩ : ∃ n, fuel = n + 1 := ⟨fuel - 1, by omega⟩
    obtain ⟨s', hget, hs', -⟩ := h.nil hs
    have hrun : stringRun width written [] = [] := by simp [stringRun, upTo]
    rw [hrun, stored_nil]
    refine ⟨s', ?_, hs'⟩
    cases hstp : stop with
    | none => simp [stringLoop, hget, hstp]
    | some c =>
      obtain rfl := hend.zero hstp
      simp [stringLoop, hget, hstp, isWhitespace_eq, isSpace]
  | cons c text ih =>
    intro fuel dst written o s hs hfl hnul hrm
    obtain ⟨fuel, rfl⟩ : ∃ n, fuel = n + 1 := ⟨fuel - 1, by omega⟩
    obtain ⟨hc, hnul⟩ : c ≠ 0 ∧ 0 ∉ text := by simpa [eq_comm] using hnul
    obtain ⟨s₁, hget, hs₁⟩ := h.cons hs
    rw [length_cons] at hrm hfl
    by_cases hstp : width > 0 ∧ written ≥ width ∨ isSpace c = true
    · obtain ⟨s', hun, hs'⟩ := h.back hs hs₁
      rw [stringRun_stop hstp, stored_nil]
      refine ⟨s', ?_, h.mono hs'⟩
      cases hspa : isSpace c with
      | true => simp [stringLoop, hget, isWhitespace_eq, hspa, hun]
      | false =>
        have hfu : width > 0 ∧ written ≥ width := hstp.resolve_right (by simp [hspa])
        simp [stringLoop, hget, isWhitespace_eq, hspa, hun, hfu.1, hfu.2, hc]
    · obtain ⟨hfu, hspa⟩ := not_or.mp hstp
      rw [Bool.not_eq_true] at hspa
      have hlt : dst + 1 < 2 ^ 32 := by omega
      obtain ⟨s', hloo, hs'⟩ := ih (dst + 1) (written + 1) (o.stored dst [c]) hs₁ (show text.length < fuel by omega) hnul
        (by omega)
      rw [stringRun_cons hfu hspa, stored_cons]
      refine ⟨s', ?_, ?_⟩
      · simp only [stringLoop, hget, ok_bind, isWhitespace_eq, hspa, if_true, if_neg hc, if_neg hfu,
          write_ok o _ (Nat.le_of_lt hlt), incrPtr_ok hlt]
        rw [Nat.add_right_comm] at hloo
        exact hloo
      · simpa [stored, Nat.add_assoc, Nat.add_comm 1] using hs'

def stringOut (width ptr : Nat) (text : List UInt8) : Outcome := .ok (true, ⟨(stringRun width 0 text).length, 1, 1,
    charStores ptr (stringRun width 0 text) ++ [storeOf (ptr + (stringRun width 0 text).length) 1 0]⟩,
    text.drop (stringRun width 0 text).length)

theorem length_upTo_le (width used : Nat) (text : List UInt8) : (upTo width used text).length ≤ text.length := by
  unfold upTo
  split
  · exact length_take_le' _ _
  · exact Nat.le_refl _

theorem length_stringRun_le (width used : Nat) (text : List UInt8) : (stringRun width used text).length ≤ text.length :=
  (takeWhile_sublist _).length_le.trans (length_upTo_le width used text)

theorem string_done (h : r.Reads stop rewinds R) (hend : Ends stop rewinds)
    (hptr : args o.argIdx + text.length < 2 ^ 32) (hnul : 0 ∉ text) (hs : R (k + 1) o.srcCharIdx text s)
    (hfl : text.length < fuel) :
    Done R k o (string r fuel args width none o s) (stringOut width (args o.argIdx) text) := by
  obtain ⟨s', hloo, hs'⟩ := stringLoop_spec h hend text (args o.argIdx) 0 o.nextArg hs hfl hnul hptr
  have hle := length_stringRun_le width 0 text
  refine ⟨_, s', ?_, hs', fun _ => rfl⟩
  rw [string, if_neg (fun hne => hne rfl), hloo, ok_bind]
  dsimp only
  rw [write_ok _ _ (by omega), ok_bind]
  simp [stored, nextArg, addMatched, apply]

def setRun (member : UInt8 → Bool) (width used : Nat) (text : List UInt8) : List UInt8 :=
  (upTo width used text).takeWhile member

section
variable {member : UInt8 → Bool}
variable {used : Nat} {c : UInt8} {inverted : Bool} {ranges : List (UInt8 × UInt8)} {format rest : List UInt8}

theorem setRun_cons (h : ¬(width > 0 ∧ used ≥ width)) (hc : member c = true) :
    setRun member width used (c :: text) = c :: setRun member width (used + 1) text := by
  rw [setRun, upTo_cons h, takeWhile_cons_of_pos hc, setRun]

theorem setRun_full (h : width > 0 ∧ used ≥ width) : setRun member width used text = [] := by
  simp [setRun, upTo, h.1, Nat.sub_eq_zero_of_le h.2]

theorem setRun_stop (hc : member c = false) : setRun member width used (c :: text) = [] := by
  by_cases hfu : width > 0 ∧ used ≥ width
  · exact setRun_full hfu
  · rw [setRun, upTo_cons hfu, takeWhile_cons_of_neg (by simp [hc])]

theorem length_setRun_le (used : Nat) (text : List UInt8) : (setRun member width used text).length ≤ text.length :=
  (takeWhile_sublist _).length_le.trans (length_upTo_le width used text)

def CutShort (stop : Option UInt8) (member : UInt8 → Bool) (width used : Nat) (text : List UInt8) : Prop :=
  stop = none ∧ ¬(width > 0 ∧ used + (setRun member width used text).length = width) ∧
    text.drop (setRun member width used text).length = []

def setLoopFrom (r : Subject σ) (member : UInt8 → Bool) (width fuel dst count : Nat) (o : Progress) (s : σ) :
    Except Stdlib.Panic (UInt8 × Nat × Nat × Progress × σ) := do
  let (cc, o, s) ← takeChar r o s
  setLoop r member width fuel cc dst count o s

/-- The end of the loop: the last character is one that matched, or it is still to be put back. -/
theorem setLoopFrom_spec (h : r.Reads stop rewinds R) (hend : Ends stop rewinds) (hzr : member 0 = false) :
    ∀ (text : List UInt8) {fuel : Nat} (dst count : Nat) (o : Progress) {s : σ}, R (k + 1) o.srcCharIdx text s →
      text.length < fuel → dst + text.length < 2 ^ 32 → ¬(width > 0 ∧ count ≥ width) →
      (CutShort stop member width count text ∧ setLoopFrom r member width fuel dst count o s = .error .unwrap) ∨
      ¬CutShort stop member width count text ∧ ∃ cc s', setLoopFrom r member width fuel dst count o s =
          .ok (cc, dst + (setRun member width count text).length, count + (setRun member width count text).length,
            (o.stored dst (setRun member width count text)).advance (if member cc then 0 else 1), s') ∧
        ((member cc = true ∧ R k (o.srcCharIdx + (setRun member width count text).length)
            (text.drop (setRun member width count text).length) s') ∨
          (member cc = false ∧ ∃ s'', r.ungetc cc s' = .ok s'' ∧
            R k (o.srcCharIdx + (setRun member width count text).length)
              (text.drop (setRun member width count text).length) s'')) := by
  intro text
  induction text with
  | nil =>
    intro fuel dst count o s hs hfl hrm hcn
    obtain ⟨fuel, rfl⟩ : ∃ n, fuel = n + 1 := ⟨fuel - 1, by omega⟩
    obtain ⟨s', hget, hs', hbc⟩ := h.nil hs
    have hrun : setRun member width count [] = [] := by simp [setRun, upTo]
    cases hstp : stop with
    | none =>
      refine .inl ⟨⟨rfl, ?_, by simp⟩, ?_⟩
      · rw [hrun, length_nil]
        omega
      · simp [setLoopFrom, takeChar, hget, hstp]
    | some c =>
      obtain rfl := hend.zero hstp
      obtain ⟨s'', hun, hs''⟩ := hbc 0 hstp
      refine .inr ⟨?_, 0, s', ?_, .inr ⟨hzr, s'', hun, ?_⟩⟩
      · intro hcut
        cases hcut.1
      · simp [setLoopFrom, takeChar, hget, hstp, setLoop, hzr, hrun, stored_nil]
      · simpa [hrun] using h.mono hs''
  | cons c text ih =>
    intro fuel dst count o s hs hfl hrm hcn
    obtain ⟨fuel, rfl⟩ : ∃ n, fuel = n + 1 := ⟨fuel - 1, by omega⟩
    obtain ⟨s₁, hget, hs₁⟩ := h.cons hs
    rw [length_cons] at hrm hfl
    cases hc : member c with
    | false =>
      obtain ⟨s', hun, hs'⟩ := h.back hs hs₁
      rw [setRun_stop hc]
      refine .inr ⟨?_, c, s₁, ?_, .inr ⟨hc, s', hun, h.mono hs'⟩⟩
      · intro hcut
        have := hcut.2.2
        simp [setRun_stop hc] at this
      · simp [setLoopFrom, takeChar, hget, setLoop, hc, stored_nil]
    | true =>
      have hlt : dst + 1 < 2 ^ 32 := by omega
      have hrun : setRun member width count (c :: text) = _ := setRun_cons hcn hc
      have hsr : setLoopFrom r member width (fuel + 1) dst count o s =
          if width > 0 ∧ count + 1 = width then .ok (c, dst + 1, count + 1, o.stored dst [c], s₁)
          else setLoopFrom r member width fuel (dst + 1) (count + 1) (o.stored dst [c]) s₁ := by
        simp only [setLoopFrom, takeChar, hget, ok_bind, setLoop, hc, if_true,
          write_ok _ _ (Nat.le_of_lt hlt), incrPtr_ok hlt]
        rfl
      by_cases hfu : width > 0 ∧ count + 1 = width
      · rw [if_pos hfu] at hsr
        rw [setRun_full ⟨hfu.1, Nat.le_of_eq hfu.2.symm⟩] at hrun
        refine .inr ⟨?_, c, s₁, ?_, .inl ⟨hc, ?_⟩⟩
        · intro hcut
          rw [CutShort, hrun] at hcut
          exact hcut.2.1 hfu
        · rw [hsr, hrun, if_pos hc]
          rfl
        · rw [hrun]
          exact h.mono hs₁
      · rw [if_neg hfu] at hsr
        have hcut : CutShort stop member width count (c :: text) ↔ CutShort stop member width (count + 1) text := by
          rw [CutShort, CutShort, hrun, length_cons, drop_succ_cons, Nat.add_right_comm, Nat.add_assoc count]
        have hih := ih (dst + 1) (count + 1) (o.stored dst [c]) hs₁ (show text.length < fuel by omega) (by omega) (by omega)
        have hidx : (o.stored dst [c]).srcCharIdx = o.srcCharIdx + 1 := rfl
        rw [hsr, hcut, hrun, length_cons, drop_succ_cons, stored_cons o dst c (setRun member width (count + 1) text)]
        simpa only [hidx, Nat.add_assoc, Nat.add_comm 1] using hih

instance (stop : Option UInt8) (used : Nat) (text : List UInt8) : Decidable (CutShort stop member width used text) :=
  inferInstanceAs (Decidable (_ ∧ _ ∧ _))

def setOut (stop : Option UInt8) (member : UInt8 → Bool) (width ptr : Nat) (text : List UInt8) : Outcome :=
  if CutShort stop member width 0 text then .error .unwrap
  else if setRun member width 0 text = [] then .ok (true, ⟨0, 0, 1, []⟩, text)
  else .ok (true, ⟨(setRun member width 0 text).length, 1, 1,
    charStores ptr (setRun member width 0 text) ++ [storeOf (ptr + (setRun member width 0 text).length) 1 0]⟩,
    text.drop (setRun member width 0 text).length)

def finishSet (r : Subject σ) (member : UInt8 → Bool) (format : List UInt8) :
    UInt8 × Nat × Nat × Progress × σ → Except Stdlib.Panic (List UInt8 × Progress × σ)
  | (cc, dst, count, o, s) => do
    let (o, s) ← if member cc = false then do
        let s ← r.ungetc cc s
        .ok ({ o with srcCharIdx := o.srcCharIdx - 1 }, s)
      else .ok (o, s)
    let o ← if count > 0 then o.write dst 1 0 else .ok (o.addMatched (-1))
    .ok (format, o.addMatched 1, s)

theorem set_eq (hset : readSet format = .ok (inverted, ranges, rest)) : set r fuel args width none format o s =
      setLoopFrom r (inSet inverted ranges) width fuel (args o.argIdx) 0 o.nextArg s >>=
        finishSet r (inSet inverted ranges) rest := by
  rw [set, if_neg (fun hne => hne rfl), hset, ok_bind]
  rw [setLoopFrom]
  cases takeChar r o.nextArg s with
  | error e => rfl
  | ok x => rfl

theorem set_done
    (hset : readSet format = .ok (inverted, ranges, rest)) (h : r.Reads stop rewinds R) (hend : Ends stop rewinds)
    (hptr : args o.argIdx + text.length < 2 ^ 32) (hs : R (k + 1) o.srcCharIdx text s) (hfl : text.length < fuel) :
    match setOut stop (inSet inverted ranges) width (args o.argIdx) text with
    | .error e => set r fuel args width none format o s = .error e
    | .ok (_, e, left) => ∃ s', set r fuel args width none format o s = .ok (rest, o.apply e, s') ∧
        R k (o.apply e).srcCharIdx left s' := by
  have hzr : inSet inverted ranges 0 = false := by simp [inSet]
  have hle : (setRun (inSet inverted ranges) width 0 text).length ≤ text.length := length_setRun_le 0 text
  rw [set_eq hset]
  generalize inSet inverted ranges = member at *
  rcases setLoopFrom_spec h hend hzr text (args o.argIdx) 0 o.nextArg hs hfl hptr (by omega) with
    ⟨hcut, hloo⟩ | ⟨hcut, cc, s₁, hloo, hls⟩
  · rw [setOut, if_pos hcut, hloo]
    rfl
  · rw [setOut, if_neg hcut, hloo, ok_bind]
    generalize hrun : setRun member width 0 text = run at *
    -- a character that did not match is put back, and its index taken away
    have hput : ∃ s', R k (o.srcCharIdx + run.length) (text.drop run.length) s' ∧
        finishSet r member rest (cc, args o.argIdx + run.length, 0 + run.length,
          (o.nextArg.stored (args o.argIdx) run).advance (if member cc then 0 else 1), s₁) = (do
            let o' ← if 0 + run.length > 0 then
                (o.nextArg.stored (args o.argIdx) run).write (args o.argIdx + run.length) 1 0
              else .ok ((o.nextArg.stored (args o.argIdx) run).addMatched (-1))
            .ok (rest, o'.addMatched 1, s')) := by
      rcases hls with ⟨hmmb, hs'⟩ | ⟨hmmb, s', hun, hs'⟩
      · refine ⟨s₁, hs', ?_⟩
        simp [finishSet, hmmb, advance]
      · refine ⟨s', hs', ?_⟩
        simp [finishSet, hmmb, hun, advance]
    obtain ⟨s', hs', hput⟩ := hput
    rw [hput]
    by_cases hnil : run = []
    · subst hnil
      refine ⟨s', ?_, hs'⟩
      simp [stored_nil, nextArg, addMatched, apply]
    · have hpos : 0 < run.length := length_pos_iff.mpr hnil
      rw [if_neg hnil, if_pos (by omega), write_ok _ _ (by omega), ok_bind]
      refine ⟨s', ?_, hs'⟩
      simp [stored, nextArg, addMatched, apply]

end

end TouchHLE.Libc.Scanf
