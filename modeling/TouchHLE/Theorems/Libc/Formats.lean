import TouchHLE.Theorems.Libc.Directives

/-! Formats that are built from the supported directives: how they are written, and what the loop over a format does with
    a text. -/

namespace TouchHLE.Libc.Scanf
open Lib Stdlib Reader Spec List Progress
variable {width : List UInt8}

inductive IntSpecifier where
  | d | i | u | x | X
deriving DecidableEq

namespace IntSpecifier

def char : IntSpecifier → UInt8
  | d => 100
  | i => 105
  | u => 117
  | x => 120
  | X => 88

def parse : IntSpecifier → Parse
  | d => signedParse 10
  | i => signedParse 0
  | u => unsignedParse 10
  | x | X => unsignedParse 16

end IntSpecifier

inductive IntSize where
  | int | short | char
deriving DecidableEq

namespace IntSize

def modifier : IntSize → Option LengthModifier
  | int => none
  | short => some .h
  | char => some .hh

def chars : IntSize → List UInt8
  | int => []
  | short => [104]
  | char => [104, 104]

def bytes : IntSize → Nat
  | int => 4
  | short => 2
  | char => 1

end IntSize

structure SetElem where
  first : UInt8
  last : Option UInt8
deriving DecidableEq

namespace SetElem

def chars (e : SetElem) : List UInt8 :=
  match e.last with
  | none => [e.first]
  | some last => [e.first, 45, last]

def range (e : SetElem) : UInt8 × UInt8 := (e.first, e.last.getD e.first)

end SetElem

/-- A directive. A width is given by its digits. -/
inductive Item where
  | space (c : UInt8)
  | literal (c : UInt8)
  | integer (width : List UInt8) (size : IntSize) (specifier : IntSpecifier)
  | string (width : List UInt8)
  | set (width : List UInt8) (inverted : Bool) (elems : List SetElem)
deriving DecidableEq

/-- Each character of a set can be told from a bracket, and a single one is not taken for the start of a range. -/
def SetFormat : List SetElem → Prop
  | [] => True
  | e :: elems => e.first ≠ 93 ∧ (∀ last, e.last = some last → last ≠ 93) ∧
      (e.last = none → ∀ e', elems.head? = some e' → e'.first ≠ 45) ∧ SetFormat elems

def Digits (width : List UInt8) : Prop := ∀ c ∈ width, 48 ≤ c ∧ c ≤ 57

namespace Item

def WellFormed : Item → Prop
  | space c => isSpace c = true
  | literal c => isSpace c = false ∧ c ≠ 37 ∧ c ≠ 0
  | integer width _ _ => Digits width
  | string width => Digits width
  | set width inverted elems => Digits width ∧ SetFormat elems ∧
      ∃ e, elems.head? = some e ∧ (inverted = false → e.first ≠ 94)

def chars : Item → List UInt8
  | space c => [c]
  | literal c => [c]
  | integer width size specifier => 37 :: (width ++ (size.chars ++ [specifier.char]))
  | string width => 37 :: (width ++ [115])
  | set width inverted elems =>
    37 :: (width ++ 91 :: ((if inverted then [94] else []) ++ (elems.flatMap SetElem.chars ++ [93])))

end Item

def widthOf (width : List UInt8) : Nat := (maxWidth width 0).1

theorem maxWidth_append {format} (hdg : Digits width)
    (hstp : ∀ c, format.head? = some c → ¬(48 ≤ c ∧ c ≤ 57)) :
    maxWidth (width ++ format) 0 = (widthOf width, format) := by
  have hgen : ∀ width n, Digits width →
      maxWidth (width ++ format) n = ((maxWidth width n).1, format) := by
    intro width
    induction width with
    | nil =>
      intro n _
      cases format with
      | nil => rfl
      | cons c format => simp [maxWidth, hstp c rfl]
    | cons c width ih =>
      intro n hdg
      have hc := hdg c mem_cons_self
      have hrs : Digits width := fun d hd => hdg d (mem_cons_of_mem c hd)
      simp [maxWidth, hc, ih _ hrs]
  exact hgen width 0 hdg

theorem buildSet_spec : ∀ elems ranges format, SetFormat elems →
    buildSet (elems.flatMap SetElem.chars ++ 93 :: format) ranges = .ok (ranges ++ elems.map SetElem.range, format) := by
  intro elems
  induction elems with
  | nil =>
    simp [buildSet.eq_def]
  | cons e elems ih =>
    intro ranges format hfrm
    obtain ⟨hfs, hls, hdsh, hrs⟩ := hfrm
    have hih := fun range => ih (ranges ++ [range]) format hrs
    obtain ⟨first, last⟩ := e
    cases last with
    | some last =>
      simpa [SetElem.chars, SetElem.range, buildSet, hfs, hls last rfl] using hih (first, last)
    | none =>
      -- what follows is not a dash, and a bracket is not one
      have hnx : ∀ c rest, elems.flatMap SetElem.chars ++ 93 :: format = c :: rest → c ≠ 45 := by
        intro c rest hcns
        cases elems with
        | nil =>
          cases hcns
          decide
        | cons e' elems =>
          have hc : c = e'.first := by
            obtain ⟨first', last'⟩ := e'
            cases last' <;> simp [SetElem.chars] at hcns <;> exact hcns.1.symm
          rw [hc]
          exact hdsh rfl e' rfl
      have hst : buildSet (first :: (elems.flatMap SetElem.chars ++ 93 :: format)) ranges =
          buildSet (elems.flatMap SetElem.chars ++ 93 :: format) (ranges ++ [(first, first)]) := by
        generalize elems.flatMap SetElem.chars ++ 93 :: format = rest at hnx
        match rest, hnx with
        | [], _ => simp [buildSet, hfs]
        | [c], _ =>
          rw [buildSet, if_neg hfs]
          intro dash cc rest hcns
          cases hcns
        | c :: d :: rest, hnx => rw [buildSet, if_neg hfs, if_neg (hnx c _ rfl)]
      simpa [SetElem.chars, SetElem.range, hst] using hih (first, first)

theorem readSet_spec {inverted} {elems} (format : List UInt8) (hfrm : SetFormat elems)
    (hhd : ∃ e, elems.head? = some e ∧ (inverted = false → e.first ≠ 94)) :
    readSet ((if inverted then [94] else []) ++ (elems.flatMap SetElem.chars ++ 93 :: format)) =
      .ok (inverted, elems.map SetElem.range, format) := by
  have hbld := buildSet_spec elems [] format hfrm
  obtain ⟨e, hhd, hcat⟩ := hhd
  have hfs : (elems.flatMap SetElem.chars ++ 93 :: format).head? = some e.first := by
    cases elems with
    | nil => cases hhd
    | cons e' elems =>
      cases hhd
      obtain ⟨first, last⟩ := e
      cases last <;> rfl
  have hbrc : e.first ≠ 93 := by
    cases elems with
    | nil => cases hhd
    | cons e' elems =>
      cases hhd
      exact hfrm.1
  cases inverted with
  | false => simp [readSet, hfs, hbrc, hcat rfl, hbld]
  | true => simp [readSet, hfs, hbrc, hbld]

section
variable {σ : Type} {r : Subject σ} {stop : Option UInt8} {rewinds : Bool} {R : Nat → Nat → List UInt8 → σ → Prop}
  {k fuel rounds : Nat} {text format : List UInt8} {s : σ} {o : Progress} {args : Nat → Nat}

def convert (r : Subject σ) (fuel : Nat) (f : Progress → σ → Except Stdlib.Panic (Bool × Progress × σ))
    (format : List UInt8) (o : Progress) (s : σ) : Except Stdlib.Panic (Option (List UInt8) × Progress × σ) := do
  let (more, o, s) ← spaces r fuel o s
  if more = false then .ok (none, o, s)
  else
    let (more, o, s) ← f o s
    .ok (if more then some format else none, o, s)

theorem lengthModifier_chars (size : IntSize) (specifier : IntSpecifier) :
    lengthModifier (size.chars ++ specifier.char :: format) = (size.modifier, specifier.char :: format) := by
  cases size <;> cases specifier <;> rfl

theorem not_digit_chars (size : IntSize) (specifier : IntSpecifier) (c : UInt8)
    (hc : (size.chars ++ specifier.char :: format).head? = some c) : ¬(48 ≤ c ∧ c ≤ 57) := by
  cases size <;> cases specifier <;> cases hc <;> decide

theorem conversion_integer (hdg : Digits width) (size : IntSize) (specifier : IntSpecifier) :
    conversion r fuel args (width ++ (size.chars ++ specifier.char :: format)) o s =
      convert r fuel (integer r fuel args specifier.parse (widthOf width) size.modifier) format o s := by
  unfold conversion
  rw [maxWidth_append hdg (not_digit_chars size specifier)]
  dsimp only
  rw [lengthModifier_chars]
  cases specifier <;> rfl

theorem conversion_string (hdg : Digits width) : conversion r fuel args (width ++ 115 :: format) o s =
      convert r fuel (string r fuel args (widthOf width) none) format o s := by
  have hstp : ∀ c, (115 :: format).head? = some c → ¬(48 ≤ c ∧ c ≤ 57) := by
    intro c hc
    cases hc
    decide
  unfold conversion
  rw [maxWidth_append hdg hstp]
  rfl

theorem conversion_set (hdg : Digits width) : conversion r fuel args (width ++ 91 :: format) o s = (do
      let (format, o, s) ← set r fuel args (widthOf width) none format o s
      .ok (some format, o, s)) := by
  have hstp : ∀ c, (91 :: format).head? = some c → ¬(48 ≤ c ∧ c ≤ 57) := by
    intro c hc
    cases hc
    decide
  unfold conversion
  rw [maxWidth_append hdg hstp]
  rfl

/-! ### What a directive does -/

def afterSpaces (stop : Option UInt8) (f : List UInt8 → Outcome) (text : List UInt8) : Outcome :=
  if text.dropWhile isSpace = [] ∧ stop = none then .ok (false, Effect.none.after (text.takeWhile isSpace).length, [])
  else
    match f (text.dropWhile isSpace) with
    | .error e => .error e
    | .ok (more, e, rest) => .ok (more, e.after (text.takeWhile isSpace).length, rest)

def Item.out (stop : Option UInt8) (rewinds : Bool) (ptr : Nat) : Item → List UInt8 → Outcome
  | .space _, text => spaceOut stop text
  | .literal c, text => literalOut stop c text
  | .integer width size specifier, text =>
    afterSpaces stop (integerOut stop rewinds specifier.parse (widthOf width) size.bytes ptr) text
  | .string width, text => afterSpaces stop (stringOut (widthOf width) ptr) text
  | .set width inverted elems, text => setOut stop (inSet inverted (elems.map SetElem.range)) (widthOf width) ptr text

def Steps (R : Nat → Nat → List UInt8 → σ → Prop) (k : Nat) (o : Progress) (x : Except Stdlib.Panic (Progress × σ))
    (goesOn : Progress → σ → Except Stdlib.Panic (Progress × σ)) : Outcome → Prop
  | .error e => x = .error e
  | .ok (more, e, rest) => ∃ j s', R k j rest s' ∧ (more = true → j = (o.apply e).srcCharIdx) ∧
      x = if more then goesOn (o.apply e) s' else .ok (o.apply e, s')

theorem steps_ordinary {c} {out} (hc : c ≠ 0) (hprc : c ≠ 37)
    (hdn : Done R k o (ordinary r fuel c o s) out) :
    Steps R k o (sscanfCommonGeneric r fuel args (rounds + 1) (c :: format) o s)
      (sscanfCommonGeneric r fuel args rounds format) out := by
  rw [sscanfCommonGeneric, if_neg hc, if_pos hprc]
  cases out with
  | error e =>
    rw [show ordinary r fuel c o s = .error e from hdn]
    rfl
  | ok x =>
    obtain ⟨j, s', hdn, hs', hmr⟩ := hdn
    refine ⟨j, s', hs', hmr, ?_⟩
    rw [hdn]
    rfl

def afterConversion (r : Subject σ) (fuel : Nat) (args : Nat → Nat) (rounds : Nat) :
    Option (List UInt8) × Progress × σ → Except Stdlib.Panic (Progress × σ)
  | (none, o, s) => .ok (o, s)
  | (some format, o, s) => sscanfCommonGeneric r fuel args rounds format o s

theorem steps_convert {f} {out}
    {spec} (h : r.Reads stop rewinds R) (hend : Ends stop rewinds) (hs : R (k + 1) o.srcCharIdx text s)
    (hfl : text.length < fuel) (hcnv : conversion r fuel args spec o s = convert r fuel f format o s)
    (hdn : ∀ s', R (k + 1) (o.advance (text.takeWhile isSpace).length).srcCharIdx (text.dropWhile isSpace) s' →
      Done R k (o.advance (text.takeWhile isSpace).length) (f (o.advance (text.takeWhile isSpace).length) s')
        (out (text.dropWhile isSpace))) :
    Steps R k o (sscanfCommonGeneric r fuel args (rounds + 1) (37 :: spec) o s)
      (sscanfCommonGeneric r fuel args rounds format) (afterSpaces stop out text) := by
  have hro : sscanfCommonGeneric r fuel args (rounds + 1) (37 :: spec) o s =
      convert r fuel f format o s >>= afterConversion r fuel args rounds := by
    rw [← hcnv]
    rfl
  rw [hro, convert, afterSpaces]
  obtain ⟨s₁, ⟨hspe, hnil, hstp, hs₁⟩ | ⟨hspe, hso, hs₁⟩⟩ := spaces_spec h hend text hs hfl
  · rw [if_pos ⟨hnil, hstp⟩, hspe]
    refine ⟨_, s₁, hs₁, by simp, ?_⟩
    rw [apply_after, apply_none]
    rfl
  · rw [if_neg (fun hbt => hso hbt.1 hbt.2), hspe, ok_bind]
    have hdn := hdn s₁ hs₁
    dsimp only
    generalize out (text.dropWhile isSpace) = found at hdn
    cases found with
    | error e =>
      rw [show f (o.advance (text.takeWhile isSpace).length) s₁ = .error e from hdn]
      rfl
    | ok x =>
      obtain ⟨more, e, rest⟩ := x
      obtain ⟨j, s', hdn, hs', hmr⟩ := hdn
      refine ⟨j, s', hs', ?_, ?_⟩
      · rw [apply_after]
        exact hmr
      · rw [hdn, apply_after]
        cases more <;> rfl

theorem item_steps (h : r.Reads stop rewinds R) (hend : Ends stop rewinds) (item : Item) (hfo : item.WellFormed)
    (hrm : args o.argIdx + text.length + 4 ≤ 2 ^ 32) (hnul : 0 ∉ text) (hs : R (k + 1) o.srcCharIdx text s)
    (hfl : text.length < fuel) :
    Steps R k o (sscanfCommonGeneric r fuel args (rounds + 1) (item.chars ++ format) o s)
      (sscanfCommonGeneric r fuel args rounds format) (item.out stop rewinds (args o.argIdx) text) := by
  have hsub : (text.dropWhile isSpace).Sublist text := dropWhile_sublist _
  have hle := hsub.length_le
  cases item with
  | space c =>
    have hne : c ≠ 0 ∧ c ≠ 37 := by
      constructor
      · rintro rfl
        cases hfo
      · rintro rfl
        cases hfo
    exact steps_ordinary hne.1 hne.2 (ordinary_space h hend hfo hs hfl)
  | literal c => exact steps_ordinary hfo.2.2 hfo.2.1 (ordinary_literal h hfo.1 hfo.2.2 hend hs)
  | integer width size specifier =>
    have hsz : LengthModifier.size size.modifier = .ok size.bytes := by cases size <;> rfl
    have hby : size.bytes ≤ 4 := by cases size <;> decide
    have hbs : specifier.parse.base ≤ 36 := by cases specifier <;> decide
    rw [Item.chars, Item.out, cons_append, append_assoc, append_assoc]
    refine steps_convert h hend hs hfl (conversion_integer hfo size specifier) fun s' hs' => ?_
    exact integer_done h hend hsz (show args o.argIdx + size.bytes ≤ 2 ^ 32 by omega) hbs hs' (by omega)
  | string width =>
    rw [Item.chars, Item.out, cons_append, append_assoc, singleton_append]
    refine steps_convert h hend hs hfl (conversion_string hfo) fun s' hs' => ?_
    exact string_done h hend (show args o.argIdx + _ < 2 ^ 32 by omega)
      (fun hmem => hnul (hsub.subset hmem)) hs' (by omega)
  | set width inverted elems =>
    obtain ⟨hdg, hfrm, hhd⟩ := hfo
    have hset := readSet_spec format hfrm hhd
    have hptr : args o.argIdx + text.length < 2 ^ 32 := by omega
    have hdn := @set_done (widthOf width) σ r stop rewinds R k fuel text s o args _ _ _ _ hset h hend hptr hs hfl
    have hro : sscanfCommonGeneric r fuel args (rounds + 1) ((Item.set width inverted elems).chars ++ format) o s = (do
        let (rest, o, s) ← set r fuel args (widthOf width) none
          ((if inverted then [94] else []) ++ (elems.flatMap SetElem.chars ++ 93 :: format)) o s
        sscanfCommonGeneric r fuel args rounds rest o s) := by
      rw [Item.chars, cons_append, append_assoc, sscanfCommonGeneric, if_neg (by decide), if_neg (by decide)]
      simp only [cons_append, append_assoc, nil_append, conversion_set hdg]
      cases set r fuel args (widthOf width) none
          ((if inverted then [94] else []) ++ (elems.flatMap SetElem.chars ++ 93 :: format)) o s with
      | error e => rfl
      | ok x => rfl
    rw [hro, Item.out]
    cases hout : setOut stop (inSet inverted (elems.map SetElem.range)) (widthOf width) (args o.argIdx) text with
    | error e =>
      rw [hout] at hdn
      rw [show set r fuel args (widthOf width) none _ o s = .error e from hdn]
      rfl
    | ok x =>
      obtain ⟨more, e, rest⟩ := x
      rw [hout] at hdn
      obtain ⟨s', hdn, hs'⟩ := hdn
      have hmr : more = true := by
        unfold setOut at hout
        split at hout
        · cases hout
        · split at hout <;> cases hout <;> rfl
      refine ⟨_, s', hs', fun _ => rfl, ?_⟩
      rw [hdn, hmr]
      rfl

/-! ### What a format does -/

def formatOf (items : List Item) : List UInt8 := items.flatMap Item.chars

theorem length_le_formatOf (items : List Item) : items.length ≤ (formatOf items).length := by
  induction items with
  | nil => exact Nat.le_refl 0
  | cons item items ih =>
    have hpos : 0 < item.chars.length := by cases item <;> simp [Item.chars]
    have hlen : (formatOf (item :: items)).length = item.chars.length + (formatOf items).length := by simp [formatOf]
    rw [hlen, length_cons]
    omega

def Effect.followedBy (e e' : Effect) : Effect :=
  ⟨e.advance + e'.advance, e.matched + e'.matched, e.args + e'.args, e.stores ++ e'.stores⟩

theorem Progress.apply_followedBy (o : Progress) (e e' : Effect) : o.apply (e.followedBy e') = (o.apply e).apply e' := by
  simp [apply, Effect.followedBy, Nat.add_assoc, Int.add_assoc]

def Effect.before (e : Effect) (x : Effect × List UInt8) : Except Stdlib.Panic (Effect × List UInt8) :=
  .ok (e.followedBy x.1, x.2)

/-- The effect of the directives, the first of which uses argument `i`, and what is left of the text. -/
def runOut (stop : Option UInt8) (rewinds : Bool) (args : Nat → Nat) :
    List Item → Nat → List UInt8 → Except Stdlib.Panic (Effect × List UInt8)
  | [], _, text => .ok (.none, text)
  | item :: items, i, text =>
    match item.out stop rewinds (args i) text with
    | .error e => .error e
    | .ok (false, e, rest) => .ok (e, rest)
    | .ok (true, e, rest) => runOut stop rewinds args items (i + e.args) rest >>= e.before

structure Ran (R : Nat → Nat → List UInt8 → σ → Prop) (k : Nat) (o : Progress) (x : Except Stdlib.Panic (Progress × σ))
    (out : Except Stdlib.Panic (Effect × List UInt8)) : Prop where
  error : ∀ e, out = .error e → x = .error e
  ok : ∀ e rest, out = .ok (e, rest) → ∃ j s', x = .ok (o.apply e, s') ∧ R k j rest s'

theorem run_spec {contents} (h : r.Reads stop rewinds R) (hend : Ends stop rewinds)
    (hprt : ∀ {k i rest s}, R k i rest s → rest <:+ contents) (hrm : ∀ i, args i + contents.length + 4 ≤ 2 ^ 32)
    (hnul : 0 ∉ contents) (hfl : contents.length < fuel) :
    ∀ (items : List Item) {rounds : Nat} {text : List UInt8} {o : Progress} {s : σ}, (∀ item ∈ items, item.WellFormed) →
      items.length < rounds → R (k + items.length) o.srcCharIdx text s →
      Ran R k o (sscanfCommonGeneric r fuel args rounds (formatOf items) o s)
        (runOut stop rewinds args items o.argIdx text) := by
  intro items
  induction items with
  | nil =>
    intro rounds text o s _ hrnd hs
    obtain ⟨rounds, rfl⟩ : ∃ n, rounds = n + 1 := ⟨rounds - 1, by omega⟩
    refine ⟨by simp [runOut], ?_⟩
    intro e rest hok
    cases hok
    refine ⟨_, s, ?_, hs⟩
    rw [apply_none]
    rfl
  | cons item items ih =>
    intro rounds text o s hfo hrnd hs
    obtain ⟨rounds, rfl⟩ : ∃ n, rounds = n + 1 := ⟨rounds - 1, by omega⟩
    have hsff := hprt hs
    have hlen := hsff.length_le
    have hrs : ∀ item ∈ items, item.WellFormed := fun item hie => hfo item (mem_cons_of_mem _ hie)
    have hptr := hrm o.argIdx
    have hse : Steps R (k + items.length) o
        (sscanfCommonGeneric r fuel args (rounds + 1) (item.chars ++ formatOf items) o s)
        (sscanfCommonGeneric r fuel args rounds (formatOf items)) (item.out stop rewinds (args o.argIdx) text) :=
      item_steps h hend item (hfo item mem_cons_self) (by omega) (fun hmem => hnul (hsff.subset hmem)) hs
        (by omega)
    have hfrm : formatOf (item :: items) = item.chars ++ formatOf items := rfl
    rw [hfrm, runOut]
    generalize item.out stop rewinds (args o.argIdx) text = out at hse
    cases out with
    | error e =>
      refine ⟨?_, by simp⟩
      intro e' heo
      cases heo
      exact hse
    | ok x =>
      obtain ⟨more, e, rest⟩ := x
      obtain ⟨j, s', hs', hid, hse⟩ := hse
      cases more with
      | false =>
        refine ⟨by simp, ?_⟩
        intro e' rest' hok
        cases hok
        exact ⟨j, s', hse, h.mono_le (Nat.le_add_right _ _) hs'⟩
      | true =>
        rw [hid rfl] at hs'
        have hih := ih hrs (Nat.lt_of_succ_lt_succ hrnd) hs'
        rw [hse, if_pos rfl]
        constructor
        · intro e' heo
          obtain heo | ⟨x, -, hok⟩ := bind_eq_error.mp heo
          · exact hih.error e' heo
          · cases hok
        · intro e' rest' hok
          obtain ⟨x, hrun, hok⟩ := bind_eq_ok.mp hok
          cases hok
          obtain ⟨j', s'', hloo, hs''⟩ := hih.ok x.1 x.2 hrun
          refine ⟨j', s'', ?_, hs''⟩
          rw [hloo, apply_followedBy]

end
end TouchHLE.Libc.Scanf
