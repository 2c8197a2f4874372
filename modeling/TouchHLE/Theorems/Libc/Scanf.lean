import TouchHLE.Theorems.Libc.FileStream
import TouchHLE.Theorems.Libc.Numbers

/-! # Scanning strings and streams

What `sscanf` does not count has not been read; `fscanf` has to put it back, and does not for a literal character that does
not match and for the start of a number without digits. Most directives do not expect the end of a stream. -/

namespace TouchHLE.Libc.Scanf
open Lib Stdlib Reader Spec Numeral List Progress

/-- How many characters a directive takes, unless the format ends with it. -/
def Item.takes : Item → List UInt8 → Option Nat
  | .space _, text => some (text.takeWhile isSpace).length
  | .literal _, _ => some 1
  | .integer width _ specifier, text =>
    (numberTakes specifier.parse.base (widthOf width) (text.dropWhile isSpace)).map ((text.takeWhile isSpace).length + ·)
  | .string width, text =>
    some ((text.takeWhile isSpace).length + (stringRun (widthOf width) 0 (text.dropWhile isSpace)).length)
  | .set width inverted elems, text => some (setRun (inSet inverted (elems.map SetElem.range)) (widthOf width) 0 text).length

/-- A directive meets what it expects: more than white space, the character itself, nothing of a number or a whole one, or
    characters of a set up to one that is not in it. -/
def Item.Calm : Item → List UInt8 → Prop
  | .space _, text => text.dropWhile isSpace ≠ []
  | .literal c, text => text.head? = some c
  | .integer width _ specifier, text => CalmNumber specifier.parse (widthOf width) (text.dropWhile isSpace)
  | .string _, text => text.dropWhile isSpace ≠ []
  | .set width inverted elems, text => ¬CutShort none (inSet inverted (elems.map SetElem.range)) (widthOf width) 0 text

instance (item : Item) (text : List UInt8) : Decidable (item.Calm text) :=
  match item with
  | .space _ => inferInstanceAs (Decidable (_ ≠ _))
  | .literal _ => inferInstanceAs (Decidable (_ = _))
  | .integer _ _ _ => inferInstanceAs (Decidable (CalmNumber _ _ _))
  | .string _ => inferInstanceAs (Decidable (_ ≠ _))
  | .set _ _ _ => inferInstanceAs (Decidable (¬_))

section
variable {text : List UInt8} {ptr : Nat}

theorem afterSpaces_of_ne {stop} {f} (h : text.dropWhile isSpace = [] → stop ≠ none) :
    afterSpaces stop f text =
      match f (text.dropWhile isSpace) with
      | .error e => .error e
      | .ok (more, e, rest) => .ok (more, e.after (text.takeWhile isSpace).length, rest) :=
  if_neg fun hbt => h hbt.1 hbt.2

theorem length_spaces (text : List UInt8) :
    text.length = (text.takeWhile isSpace).length + (text.dropWhile isSpace).length := by
  rw [← length_append, takeWhile_append_dropWhile]

theorem drop_spaces (text : List UInt8) (n : Nat) :
    (text.dropWhile isSpace).drop n = text.drop ((text.takeWhile isSpace).length + n) := by
  conv_rhs => rw [← takeWhile_append_dropWhile (p := isSpace) (l := text)]
  rw [drop_append]
  simp

theorem takeWhile_dropWhile (text : List UInt8) : (text.dropWhile isSpace).takeWhile isSpace = [] := by
  induction text with
  | nil => rfl
  | cons c text ih =>
    cases hc : isSpace c with
    | true => simpa [hc] using ih
    | false => simp [hc]

theorem Compared.afterSpaces {f f'} {calm} {takes}
    (h : Compared (text.dropWhile isSpace) calm takes (f (text.dropWhile isSpace)) (f' (text.dropWhile isSpace)))
    (hne : text.dropWhile isSpace ≠ []) :
    Compared text calm (takes.map ((text.takeWhile isSpace).length + ·)) (afterSpaces (some 0) f text)
      (afterSpaces none f' text) := by
  have hlen := length_spaces text
  rw [afterSpaces_of_ne (fun _ => by simp), afterSpaces_of_ne (fun hnil => absurd hnil hne)]
  generalize f (text.dropWhile isSpace) = out at h
  generalize f' (text.dropWhile isSpace) = out' at h
  cases h with
  | stops h hsm hlen' =>
    refine .stops h hsm ?_
    simp only [Effect.after]
    omega
  | goesOn h hsm hn hle =>
    simp only [drop_spaces, Option.map_some]
    refine .goesOn h hsm ?_ (by omega)
    simp [Effect.after, hn]
  | parts h hdff =>
    refine .parts h ?_
    intro halk
    refine hdff ?_
    cases out with
    | error e => exact halk
    | ok x =>
      cases out' with
      | error e => exact halk
      | ok y =>
        obtain ⟨hmtc, hst, hsum⟩ := halk
        refine ⟨hmtc, hst, ?_⟩
        simp only [Effect.after] at hsum
        omega

theorem integerOut_nil {parse} (h : parse.Regular) (width size : Nat) :
    integerOut (some 0) false parse width size ptr [] = .ok (false, .none, []) := by
  have hbs := h.base
  have hoc : codeBase parse.base [] ≠ 8 := by
    by_cases hzr : parse.base = 0
    · simp [codeBase, hzr]
    · rw [codeBase, if_pos hzr]
      omega
  have hsp : splitSign [] = (none, []) := rfl
  rw [integerOut_eq, found_body (some 0) false rfl hsp, if_neg (fun hbt => hbt.1 rfl), foundBase_string, Scan.foundPrefix]
  have hnn : finishInteger parse size ptr (withDigits (afterSign (codeBase parse.base []) none) 0 [], []) = _ :=
    finish_none (h.range []) hoc
  exact hnn

theorem item_compared (item : Item) (text : List UInt8) (ptr : Nat) :
    Compared text (item.Calm text) (item.takes text) (item.out (some 0) false ptr text) (item.out none true ptr text) := by
  have hlen := length_spaces text
  cases item with
  | space c =>
    have hsti : spaceOut (some 0) text = _ := if_neg (by simp)
    rw [Item.out, Item.out, hsti, Item.takes]
    by_cases hnil : text.dropWhile isSpace = []
    · rw [spaceOut, if_pos ⟨hnil, rfl⟩]
      exact .parts (fun hcm => hcm hnil) (not_alike_error _)
    · have hdr := drop_spaces text 0
      rw [drop_zero, Nat.add_zero] at hdr
      rw [spaceOut, if_neg (fun hbt => hnil hbt.1), hdr]
      exact .goesOn hnil (.refl _) rfl (by omega)
  | literal c =>
    rw [Item.out, Item.out, Item.takes, literalOut, literalOut]
    cases text with
    | nil =>
      refine .parts (by simp [Item.Calm]) ?_
      exact not_alike_error _
    | cons d text =>
      rw [next_cons, next_cons]
      by_cases hc : c = d
      · simp only [if_pos hc]
        exact .goesOn (by rw [Item.Calm, hc]; rfl) (.refl _) rfl (by simp)
      · simp only [if_neg hc]
        refine .parts (fun hcm => hc (Option.some.inj hcm).symm) ?_
        rintro ⟨-, -, hsum⟩
        simp [Effect.none] at hsum
  | integer width size specifier =>
    have hrgl := specifier.regular
    rw [Item.out, Item.out, Item.takes]
    by_cases hnil : text.dropWhile isSpace = []
    · have hno : NoNumber specifier.parse.base [] := ⟨rfl, rfl⟩
      rw [afterSpaces_of_ne (fun _ => by simp), afterSpaces, if_pos ⟨hnil, rfl⟩, hnil, integerOut_nil hrgl, numberTakes,
        if_pos hno]
      refine .stops ?_ (.refl _) ?_
      · rw [Item.Calm, hnil]
        exact .inl hno
      · rw [hnil] at hlen
        exact hlen.symm
    · exact (integer_compared hrgl (takeWhile_dropWhile text) hnil).afterSpaces hnil
  | string width =>
    rw [Item.out, Item.out, Item.takes]
    by_cases hnil : text.dropWhile isSpace = []
    · rw [afterSpaces_of_ne (fun _ => by simp), afterSpaces, if_pos ⟨hnil, rfl⟩]
      refine .parts (fun hcm => hcm hnil) ?_
      rintro ⟨hmtc, -, -⟩
      cases hmtc
    · have hle := length_stringRun_le (widthOf width) 0 (text.dropWhile isSpace)
      have hcmp : Compared (text.dropWhile isSpace) (text.dropWhile isSpace ≠ []) (some _)
          (stringOut (widthOf width) ptr _) (stringOut (widthOf width) ptr _) :=
        .goesOn hnil (.refl _) rfl hle
      exact hcmp.afterSpaces hnil
  | set width inverted elems =>
    rw [Item.out, Item.out, Item.takes]
    generalize hmmb : inSet inverted (elems.map SetElem.range) = member
    have hle : (setRun member (widthOf width) 0 text).length ≤ text.length := length_setRun_le 0 text
    have hsti : ¬CutShort (some 0) member (widthOf width) 0 text := by
      intro hcut
      cases hcut.1
    rw [setOut, setOut, if_neg hsti]
    by_cases hcut : CutShort none member (widthOf width) 0 text
    · rw [if_pos hcut]
      refine .parts (fun hcm => ?_) (not_alike_error _)
      rw [Item.Calm, hmmb] at hcm
      exact hcm hcut
    · have hcm : (Item.set width inverted elems).Calm text := by
        rw [Item.Calm, hmmb]
        exact hcut
      rw [if_neg hcut]
      by_cases hnil : setRun member (widthOf width) 0 text = []
      · rw [if_pos hnil, hnil]
        exact .goesOn hcm (.refl _) rfl (Nat.zero_le _)
      · rw [if_neg hnil]
        exact .goesOn hcm (.refl _) rfl hle

end

def CalmAll : List Item → List UInt8 → Prop
  | [], _ => True
  | item :: items, text => item.Calm text ∧ ∀ n, item.takes text = some n → CalmAll items (text.drop n)

/-- The first parts of a format, the empty one apart, start with its first directive. -/
theorem forall_take_cons {P : List Item → Prop} (hnil : P []) {item} {items} :
    (∀ k, P ((item :: items).take k)) ↔ ∀ k, P (item :: items.take k) := by
  constructor
  · intro hall k
    exact hall (k + 1)
  · intro hall k
    cases k with
    | zero => exact hnil
    | succ k => exact hall k

section
variable {stop : Option UInt8} {rewinds : Bool} {args : Nat → Nat}

theorem runOut_singleton (item : Item) (i : Nat) (text : List UInt8) :
    runOut stop rewinds args [item] i text = (item.out stop rewinds (args i) text).effect := by
  rw [runOut]
  cases item.out stop rewinds (args i) text with
  | error e => rfl
  | ok x =>
    obtain ⟨more, e, rest⟩ := x
    cases more with
    | false => rfl
    | true => simp [runOut, Outcome.effect, Effect.before, Effect.followedBy, Effect.none]

theorem alike_followedBy {text} {e e' : Effect} {n : Nat} (hsm : e.Same e') (hn : e.advance = n)
    (hle : n ≤ text.length) (x y : Except Stdlib.Panic (Effect × List UInt8)) :
    Alike text (x >>= e.before) (y >>= e'.before) ↔ Alike (text.drop n) x y := by
  obtain ⟨hmtc, -, hst⟩ := hsm
  cases x with
  | error _ => exact .rfl
  | ok x =>
    cases y with
    | error _ => exact .rfl
    | ok y =>
      simp only [ok_bind, Alike, Effect.before, Effect.followedBy, hmtc, hst, hn, length_drop]
      rw [append_cancel_left_eq]
      constructor
      · rintro ⟨h₁, h₂, h₃⟩
        exact ⟨by omega, h₂, by omega⟩
      · rintro ⟨h₁, h₂, h₃⟩
        exact ⟨by omega, h₂, by omega⟩

theorem runOut_alike_iff : ∀ items i text,
    (∀ k, Alike text (runOut (some 0) false args (items.take k) i text) (runOut none true args (items.take k) i text)) ↔
      CalmAll items text := by
  intro items
  induction items with
  | nil =>
    simp [CalmAll, runOut, Alike, Effect.none]
  | cons item items ih =>
    intro i text
    have hsr : Alike text (runOut (some 0) false args [] i text) (runOut none true args [] i text) := by
      simp [runOut, Alike, Effect.none]
    rw [forall_take_cons (P := fun items => Alike text (runOut (some 0) false args items i text)
      (runOut none true args items i text)) hsr]
    have hfs : (∀ k, Alike text (runOut (some 0) false args (item :: items.take k) i text)
        (runOut none true args (item :: items.take k) i text)) →
          Alike text (item.out (some 0) false (args i) text).effect (item.out none true (args i) text).effect := by
      intro hall
      rw [← runOut_singleton, ← runOut_singleton]
      exact hall 0
    have hcmp := item_compared item text (args i)
    rw [CalmAll]
    simp only [runOut] at hfs ⊢
    generalize item.out (some 0) false (args i) text = out at hfs hcmp ⊢
    generalize item.out none true (args i) text = out' at hfs hcmp ⊢
    generalize item.takes text = takes at hcmp ⊢
    cases hcmp with
    | stops hcm hsm hlen =>
      exact ⟨fun _ => ⟨hcm, by simp⟩, fun _ _ => ⟨hsm.1, hsm.2.2, hlen⟩⟩
    | @goesOn e e' n hcm hsm hn hle =>
      have harg : e'.args = e.args := hsm.2.1.symm
      simp only [alike_followedBy hsm hn hle, harg, ih]
      constructor
      · intro hrs
        refine ⟨hcm, ?_⟩
        intro m hm
        cases hm
        exact hrs
      · intro hall
        exact hall.2 n rfl
    | parts hcm hdff => exact ⟨fun hall => absurd (hfs hall) hdff, fun hall => absurd hall.1 hcm⟩

end

/-- At the end of a string, `%s` is not reached: a number or a literal character comes first. -/
def Quiet : List Item → Prop
  | [] => True
  | .space _ :: items => Quiet items
  | .set _ _ _ :: items => Quiet items
  | .literal _ :: _ => True
  | .integer _ _ _ :: _ => True
  | .string _ :: _ => False

def Silent : Except Stdlib.Panic (Effect × List UInt8) → Prop
  | .ok (e, _) => e.stores = [] ∧ e.advance = 0
  | .error _ => False

theorem silent_followedBy {e : Effect} (hst : e.stores = []) (hadv : e.advance = 0)
    (x : Except Stdlib.Panic (Effect × List UInt8)) :
    Silent (x >>= e.before) ↔ Silent x := by
  cases x with
  | error _ => exact .rfl
  | ok x => simp [Silent, Effect.before, Effect.followedBy, hst, hadv]

theorem runOut_silent_iff {args} : ∀ items i, (∀ item ∈ items, item.WellFormed) →
    ((∀ k, Silent (runOut (some 0) false args (items.take k) i [])) ↔ Quiet items) := by
  intro items
  induction items with
  | nil =>
    simp [Quiet, runOut, Silent, Effect.none]
  | cons item items ih =>
    intro i hfo
    have hrs : ∀ item ∈ items, item.WellFormed := fun item hie => hfo item (mem_cons_of_mem _ hie)
    rw [forall_take_cons (P := fun items => Silent (runOut (some 0) false args items i [])) ⟨rfl, rfl⟩]
    -- the directives that go on
    have hgs : ∀ e, item.out (some 0) false (args i) [] = .ok (true, e, []) → e.stores = [] → e.advance = 0 →
        ((∀ k, Silent (runOut (some 0) false args (item :: items.take k) i [])) ↔ Quiet items) := by
      intro e hout hst hadv
      simp only [runOut, hout, silent_followedBy hst hadv]
      exact ih _ hrs
    have hss : item.out (some 0) false (args i) [] = .ok (false, .none, []) →
        ∀ k, Silent (runOut (some 0) false args (item :: items.take k) i []) := by
      intro hout k
      rw [runOut, hout]
      exact ⟨rfl, rfl⟩
    cases item with
    | space c => exact hgs _ rfl rfl rfl
    | literal c =>
      have hzr : c ≠ 0 := (hfo _ mem_cons_self).2.2
      refine iff_of_true (hss ?_) trivial
      simp [Item.out, literalOut, hzr]
    | integer width size specifier =>
      refine iff_of_true (hss ?_) trivial
      rw [Item.out, afterSpaces_of_ne (fun _ => by simp), dropWhile_nil, integerOut_nil specifier.regular]
      rfl
    | string width =>
      refine iff_of_false (fun hall => ?_) (fun hfa => hfa)
      have hone := hall 0
      rw [take_zero, runOut_singleton] at hone
      exact append_ne_nil_of_right_ne_nil _ (cons_ne_nil _ _) hone.1
    | set width inverted elems => exact hgs ⟨0, 0, 1, []⟩ (by simp [Item.out, setOut, CutShort, setRun, upTo]) rfl rfl

/-! ### Strings and streams -/

/-- `sscanf` and `fscanf` do the same: neither panics, the same is stored, and the same number is returned, except that
    `fscanf` returns `EOF` for an empty stream; and the stream is where the string has been read to. -/
def Agree (fuel : Nat) (args : Nat → Nat) (env : Env) (src : Nat) (env' : Env) (filePtr : Nat) (items : List Item)
    (text : List UInt8) : Prop :=
  ∃ n o env₁ n' o' env₁', sscanf fuel env src (formatOf items) args = .ok (n, o, env₁) ∧
    fscanf fuel env' filePtr (formatOf items) args = .ok (n', o', env₁') ∧ o'.stores = o.stores ∧
      (n' = n ∨ text = [] ∧ n' = EOF) ∧ (env₁'.hostFile filePtr).position = o.srcCharIdx

section
variable {env env' : Env} {src filePtr fuel : Nat} {text : List UInt8} {args : Nat → Nat} {items : List Item}

theorem sscanf_spec (h : CString env src text) (hfo : ∀ item ∈ items, item.WellFormed)
    (hrm : ∀ i, args i + text.length + 4 ≤ 2 ^ 32) (hfl : text.length < fuel) :
    (∀ e, runOut (some 0) false args items 0 text = .error e → sscanf fuel env src (formatOf items) args = .error e) ∧
      ∀ e rest, runOut (some 0) false args items 0 text = .ok (e, rest) →
        sscanf fuel env src (formatOf items) args = .ok (e.matched, start.apply e, env.setErrno 0) := by
  have h := h.setErrno 0
  have hran := run_spec (k := 0) (o := .start) h.reads (.inl ⟨rfl, rfl⟩) (fun hR => hR.2.2 ▸ drop_suffix _ _) hrm
    h.noNul hfl items hfo (Nat.lt_succ_of_le (length_le_formatOf items)) ⟨rfl, Nat.zero_le _, rfl⟩
  constructor
  · intro e heo
    rw [sscanf, hran.error e heo]
    rfl
  · intro e rest hok
    obtain ⟨j, s', hrun, hs', -⟩ := hran.ok e rest hok
    rw [sscanf, hrun, hs']
    simp [apply, start]

theorem fscanf_spec (h : StreamAt filePtr text items.length text env') (hne : text ≠ []) (hnul : 0 ∉ text)
    (hfo : ∀ item ∈ items, item.WellFormed) (hrm : ∀ i, args i + text.length + 4 ≤ 2 ^ 32)
    (hfl : text.length < fuel) :
    (∀ e, runOut none true args items 0 text = .error e → fscanf fuel env' filePtr (formatOf items) args = .error e) ∧
      ∀ e rest, runOut none true args items 0 text = .ok (e, rest) →
        ∃ env₁, fscanf fuel env' filePtr (formatOf items) args = .ok (e.matched, start.apply e, env₁) ∧
          (env₁.hostFile filePtr).position + rest.length = text.length := by
  have h := h.setErrno 0
  have hre := fileStream_reads filePtr text
  -- the first character is looked at
  obtain ⟨env₀, h₀, hsr⟩ : ∃ env₀, StreamAt filePtr text (0 + items.length) text env₀ ∧
      fscanf fuel env' filePtr (formatOf items) args = (do
        let x ← sscanfCommonGeneric (fileStream filePtr) fuel args ((formatOf items).length + 1) (formatOf items) .start env₀
        .ok (x.1.matchedArgs, x.1, x.2)) := by
    rw [Nat.zero_add]
    cases text with
    | nil => exact absurd rfl hne
    | cons c text =>
      obtain ⟨env₁, hget, h₁⟩ := h.getc_cons
      obtain ⟨env₂, hun, h₂⟩ := h₁.ungetc h.suffix
      refine ⟨env₂, h₂, ?_⟩
      simp [fscanf, hget, hun]
  have hran := run_spec (o := .start) hre (.inr ⟨rfl, rfl⟩) StreamAt.suffix hrm hnul hfl items hfo
    (Nat.lt_succ_of_le (length_le_formatOf items)) h₀
  rw [hsr]
  constructor
  · intro e heo
    rw [hran.error e heo]
    rfl
  · intro e rest hok
    obtain ⟨j, env₁, hrun, h₁⟩ := hran.ok e rest hok
    refine ⟨env₁, ?_, ?_⟩
    · rw [hrun]
      simp [apply, start]
    · have hpst := h₁.position
      have hle := h₁.suffix.length_le
      omega

theorem agree_iff_alike (hstr : CString env src text) (h : StreamAt filePtr text items.length text env') (hne : text ≠ [])
    (hfo : ∀ item ∈ items, item.WellFormed) (hrm : ∀ i, args i + text.length + 4 ≤ 2 ^ 32)
    (hfl : text.length < fuel) :
    Agree fuel args env src env' filePtr items text ↔
      Alike text (runOut (some 0) false args items 0 text) (runOut none true args items 0 text) := by
  obtain ⟨hstg, hstk⟩ := sscanf_spec hstr hfo hrm hfl
  obtain ⟨hstm, hsre⟩ := fscanf_spec h hne hstr.noNul hfo hrm hfl
  cases hsti : runOut (some 0) false args items 0 text with
  | error e =>
    refine iff_of_false ?_ (fun hfa => hfa)
    rintro ⟨n, o, env₁, n', o', env₁', hsa, -⟩
    cases (hstg e hsti).symm.trans hsa
  | ok x =>
    obtain ⟨e, rest⟩ := x
    have hscn := hstk e rest hsti
    cases hste : runOut none true args items 0 text with
    | error e' =>
      refine iff_of_false ?_ (fun hfa => hfa)
      rintro ⟨n, o, env₁, n', o', env₁', -, hsa, -⟩
      cases (hstm e' hste).symm.trans hsa
    | ok y =>
      obtain ⟨e', rest'⟩ := y
      obtain ⟨env₂, hscn', hpst⟩ := hsre e' rest' hste
      constructor
      · rintro ⟨n, o, env₁, n', o', env₁', hsa, hsa', hst, hcn, hpos⟩
        cases hscn.symm.trans hsa
        cases hscn'.symm.trans hsa'
        have hmtc : e'.matched = e.matched := hcn.resolve_right fun hbt => hne hbt.1
        simp only [apply, start, nil_append, Nat.zero_add] at hst hpos
        exact ⟨hmtc.symm, hst.symm, by omega⟩
      · rintro ⟨hmtc, hst, hsum⟩
        refine ⟨_, _, _, _, _, _, hscn, hscn', ?_, .inl hmtc.symm, ?_⟩
        · simp [apply, hst]
        · simp only [apply, start]
          omega

/-- On an empty stream `fscanf` does not look at the format. -/
theorem agree_iff_silent (hstr : CString env src []) (h : StreamAt filePtr [] 1 [] env')
    (hfo : ∀ item ∈ items, item.WellFormed) (hrm : ∀ i, args i + 4 ≤ 2 ^ 32) (hfl : 0 < fuel) :
    Agree fuel args env src env' filePtr items [] ↔ Silent (runOut (some 0) false args items 0 []) := by
  obtain ⟨hstg, hstk⟩ := sscanf_spec hstr hfo hrm hfl
  obtain ⟨env₂, hget, h₂⟩ := (h.setErrno 0).getc_nil
  have hste : fscanf fuel env' filePtr (formatOf items) args = .ok (EOF, .start, env₂) := by
    simp [fscanf, hget]
  have hpst := h₂.position
  cases hsti : runOut (some 0) false args items 0 [] with
  | error e =>
    refine iff_of_false ?_ (fun hfa => hfa)
    rintro ⟨n, o, env₁, n', o', env₁', hsa, -⟩
    cases (hstg e hsti).symm.trans hsa
  | ok x =>
    obtain ⟨e, rest⟩ := x
    have hscn := hstk e rest hsti
    constructor
    · rintro ⟨n, o, env₁, n', o', env₁', hsa, hsa', hst, -, hpos⟩
      cases hscn.symm.trans hsa
      cases hste.symm.trans hsa'
      simp only [apply, start, nil_append, Nat.zero_add] at hst hpos
      exact ⟨hst.symm, hpos.symm.trans hpst⟩
    · rintro ⟨hst, hadv⟩
      refine ⟨_, _, _, _, _, _, hscn, hste, ?_, .inr ⟨rfl, rfl⟩, ?_⟩
      · simp [apply, start, hst]
      · simp [apply, start, hadv, hpst]

end

/-- Scanning a text in a string and in a stream agrees after each directive of a format exactly if each directive that is
    reached meets what it expects; for an empty text, if `%s` is not reached. -/
theorem scanf_agree_iff (fuel : Nat) (args : Nat → Nat) (env : Env) (src : Nat) (env' : Env) (filePtr : Nat)
    (items : List Item) (text : List UInt8) (hstr : CString env src text)
    (hstream : StreamAt filePtr text (items.length + 1) text env') (hformed : ∀ item ∈ items, item.WellFormed)
    (hroom : ∀ i, args i + text.length + 4 ≤ 2 ^ 32) (hfuel : text.length < fuel) :
    (∀ k, Agree fuel args env src env' filePtr (items.take k) text) ↔
      if text = [] then Quiet items else CalmAll items text := by
  have hreads := fileStream_reads filePtr text
  have htake : ∀ k, ∀ item ∈ items.take k, item.WellFormed := fun k item hitem => hformed item (mem_of_mem_take hitem)
  by_cases hnil : text = []
  · subst hnil
    rw [if_pos rfl, ← runOut_silent_iff items 0 hformed]
    refine forall_congr' fun k => agree_iff_silent hstr ?_ (htake k) hroom hfuel
    exact hreads.mono_le (i := 0) (by omega) hstream
  · rw [if_neg hnil, ← runOut_alike_iff items 0 text]
    refine forall_congr' fun k => agree_iff_alike hstr ?_ hnil (htake k) hroom hfuel
    have hle := length_take_le' k items
    exact hreads.mono_le (i := 0) (by omega) hstream

theorem streamAt_opened {mem : Mem} {text} {k : Nat} (hsz : text.length ≤ offMax)
    (hrm : Roomy (k + text.length) mem) : StreamAt 16 text k text (opened mem text) :=
  ⟨suffix_rfl, ⟨text, 0, []⟩, represents_opened mem hsz, rfl, rfl, Nat.zero_le _, hrm⟩

theorem exists_roomy : ∃ mem₀ buffer heap mem, Mem.new = .ok mem₀ ∧ mem₀.allocInHeap none 1 = .ok (buffer, heap, mem) ∧
    Roomy 13 mem := by
  refine ⟨_, _, _, _, rfl, rfl, ?_⟩
  iterate 12 refine ⟨_, _, _, rfl, by decide, by decide, fun _ => ?_⟩
  exact ⟨_, _, _, rfl, by decide, by decide, fun _ => trivial⟩

def sampleText : List UInt8 := [45, 55, 44, 32, 97, 98, 32, 99]

def sampleItems : List Item := [.integer [] .int .d, .literal 44, .space 32, .string []]

theorem scanf_agree_iff_sample : ∃ mem, CString (stringEnv mem sampleText) 16 sampleText ∧
    StreamAt 16 sampleText 5 sampleText (opened mem sampleText) ∧
    ∀ k, Agree 9 (fun i => 64 + 4 * (i % 4)) (stringEnv mem sampleText) 16 (opened mem sampleText) 16 (sampleItems.take k)
      sampleText := by
  obtain ⟨mem₀, buffer, heap, mem, -, -, hroom⟩ := exists_roomy
  have hstr : CString (stringEnv mem sampleText) 16 sampleText := cString_stringEnv mem (by decide) (by decide)
  have hstream : StreamAt 16 sampleText 5 sampleText (opened mem sampleText) := streamAt_opened (by decide) hroom
  refine ⟨mem, hstr, hstream, ?_⟩
  refine (scanf_agree_iff 9 _ _ 16 _ 16 sampleItems sampleText hstr hstream ?_ ?_ (by decide)).mpr ?_
  · simp [sampleItems, Item.WellFormed, Digits, isSpace]
  · intro i
    have hlength : sampleText.length = 8 := rfl
    omega
  · refine ⟨by decide, fun n hn => ?_⟩
    obtain rfl : 2 = n := Option.some.inj hn
    refine ⟨rfl, fun n hn => ?_⟩
    obtain rfl : 1 = n := Option.some.inj hn
    refine ⟨by decide, fun n hn => ?_⟩
    obtain rfl : 1 = n := Option.some.inj hn
    exact ⟨by decide, fun _ _ => trivial⟩

def lineItems : List Item := [.integer [] .int .d, .space 10]

def pairItems : List Item := [.integer [] .int .d, .literal 44, .integer [] .int .d]

/-- On a stream with one line, `fscanf` panics at the white space after the number. On `1;2` it reads the semicolon that does
    not match, where `sscanf` ends before it. -/
theorem fscanf_diverges : ∃ mem, (CString (stringEnv mem [49, 10]) 16 [49, 10] ∧
      StreamAt 16 [49, 10] 3 [49, 10] (opened mem [49, 10]) ∧
      ¬Agree 3 (fun _ => 64) (stringEnv mem [49, 10]) 16 (opened mem [49, 10]) 16 lineItems [49, 10]) ∧
    CString (stringEnv mem [49, 59, 50]) 16 [49, 59, 50] ∧
      StreamAt 16 [49, 59, 50] 4 [49, 59, 50] (opened mem [49, 59, 50]) ∧
      ¬Agree 4 (fun _ => 64) (stringEnv mem [49, 59, 50]) 16 (opened mem [49, 59, 50]) 16 pairItems [49, 59, 50] := by
  obtain ⟨mem₀, buffer, heap, mem, -, -, hroom⟩ := exists_roomy
  have hstr : ∀ text, 0 ∉ text → 16 + text.length < 2 ^ 32 → CString (stringEnv mem text) 16 text :=
    fun text hnul hlen => cString_stringEnv mem hnul hlen
  have hstream : ∀ {k} (text : List UInt8), text.length ≤ offMax → k + text.length ≤ 13 →
      StreamAt 16 text k text (opened mem text) :=
    fun text hsize hle => streamAt_opened hsize (hroom.mono_le hle)
  refine ⟨mem, ⟨hstr _ (by decide) (by decide), hstream _ (by decide) (by decide), ?_⟩, hstr _ (by decide) (by decide),
    hstream _ (by decide) (by decide), ?_⟩
  · rw [agree_iff_alike (hstr _ (by decide) (by decide)) (hstream _ (by decide) (by decide)) (by decide)
      (by simp [lineItems, Item.WellFormed, Digits, isSpace]) (by simp) (by decide)]
    exact fun hfalse => hfalse
  · rw [agree_iff_alike (hstr _ (by decide) (by decide)) (hstream _ (by decide) (by decide)) (by decide)
      (by simp [pairItems, Item.WellFormed, Digits, isSpace]) (by simp) (by decide)]
    rintro ⟨-, -, hsum⟩
    exact absurd hsum (by decide)

end TouchHLE.Libc.Scanf
