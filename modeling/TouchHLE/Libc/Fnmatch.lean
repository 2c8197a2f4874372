import Mathlib.Computability.Language

/-! `touchHLE/src/libc/fnmatch.rs`: a string is matched against a pattern, with a memo of the matches of their beginnings. The
    language of a pattern is the product of the languages of its characters. -/

namespace TouchHLE.Libc.Fnmatch
open List

def FNM_NOMATCH : Int := 1

inductive Panic where
  /-- `cstr_at_utf8(pattern).unwrap()` -/
  | utf8
  | assertion
deriving DecidableEq

abbrev Memo := Nat × Nat → Option Bool

/-- The answer of the memo, or else the one that is computed, which is then remembered. -/
def remember (key : Nat × Nat) (compute : Memo → Bool × Memo) (mem : Memo) : Bool × Memo :=
  match mem key with
  | some val => (val, mem)
  | none => ((compute mem).1, Function.update (compute mem).2 key (some (compute mem).1))

/-- `(..).any(f)`, which ends with the first match. -/
def anyMatch (f : Nat → Memo → Bool × Memo) : List Nat → Memo → Bool × Memo
  | [], mem => (false, mem)
  | i :: rest, mem => if (f i mem).1 then (true, (f i mem).2) else anyMatch f rest (f i mem).2

/-- Matches the first `aEnd` characters of `a` against the first `bEnd` ones of `b`, which are there. -/
def fnmatchInner (a b : List UInt8) : Nat → Nat → Memo → Bool × Memo
  | aEnd, 0 => remember (aEnd, 0) fun mem => (aEnd == 0, mem)
  | aEnd, bEnd + 1 => remember (aEnd, bEnd + 1) fun mem =>
    if b[bEnd]? = some 42 then anyMatch (fun i => fnmatchInner a b i bEnd) (.range (aEnd + 1)) mem
    else if aEnd = 0 then (false, mem)
    else if a[aEnd - 1]? = b[bEnd]? then fnmatchInner a b (aEnd - 1) bEnd mem
    else (false, mem)

def fnmatch (pattern string : List UInt8) (flags : Int) : Except Panic Int :=
  if pattern.toByteArray.validateUTF8 = false then .error .utf8
  else if 92 ∈ pattern then .error .assertion
  else if 63 ∈ pattern ∨ 91 ∈ pattern then .error .assertion
  else if flags ≠ 0 then .error .assertion
  else if (fnmatchInner string pattern string.length pattern.length fun _ => none).1 then .ok 0
  else .ok FNM_NOMATCH

/-! ### The language of a pattern -/

def standsFor (c : UInt8) : Language UInt8 := if c = 42 then ⊤ else {[c]}

noncomputable def language (pattern : List UInt8) : Language UInt8 := (pattern.map standsFor).prod

def Sound (a b : List UInt8) (mem : Memo) : Prop :=
  ∀ i j v, mem (i, j) = some v → (v = true ↔ a.take i ∈ language (b.take j))

def Right (a b : List UInt8) (i j : Nat) (p : Bool × Memo) : Prop :=
  (p.1 = true ↔ a.take i ∈ language (b.take j)) ∧ Sound a b p.2

section
variable {a b : List UInt8} {i j : Nat} {mem : Memo}

theorem remember_right {compute : Memo → Bool × Memo} (h : Sound a b mem) (hcom : Right a b i j (compute mem)) :
    Right a b i j (remember (i, j) compute mem) := by
  unfold remember
  cases hmem : mem (i, j) with
  | some v => exact ⟨h i j v hmem, h⟩
  | none =>
    refine ⟨hcom.1, fun i' j' v hv => ?_⟩
    simp only [Function.update_apply] at hv
    split at hv
    · rename_i heq
      cases heq
      cases hv
      exact hcom.1
    · exact hcom.2 i' j' v hv

theorem anyMatch_right {f : Nat → Memo → Bool × Memo} {is : List Nat}
    (hf : ∀ i ∈ is, ∀ mem, Sound a b mem → Right a b i j (f i mem)) (h : Sound a b mem) :
    ((anyMatch f is mem).1 = true ↔ ∃ i ∈ is, a.take i ∈ language (b.take j)) ∧ Sound a b (anyMatch f is mem).2 := by
  induction is generalizing mem with
  | nil => exact ⟨by simp [anyMatch], h⟩
  | cons i is ih =>
    obtain ⟨hans, hsn⟩ := hf i mem_cons_self mem h
    have hrs := ih (fun i hi => hf i (mem_cons_of_mem _ hi)) hsn
    rw [anyMatch]
    split
    · rename_i htu
      exact ⟨by simp [hans.mp htu], hsn⟩
    · rename_i hfa
      exact ⟨by simp [← hans, hfa, hrs.1], hrs.2⟩

theorem language_take_succ {c : UInt8} (hc : b[j]? = some c) :
    language (b.take (j + 1)) = language (b.take j) * standsFor c := by
  simp [language, take_add_one, hc]

theorem mem_star {L : Language UInt8} : a.take i ∈ L * standsFor 42 ↔ ∃ k ∈ List.range (i + 1), a.take k ∈ L := by
  rw [Language.mem_mul]
  constructor
  · rintro ⟨s, hs, t, -, heq⟩
    refine ⟨min s.length i, by simp, ?_⟩
    rwa [← take_take, ← heq, take_left]
  · rintro ⟨k, hk, hmem⟩
    have hk := List.mem_range.mp hk
    refine ⟨a.take k, hmem, (a.take i).drop k, trivial, ?_⟩
    rw [show a.take k = (a.take i).take k by rw [take_take, min_eq_left (by omega)], take_append_drop]

theorem mem_char {L : Language UInt8} {c : UInt8} (hc : c ≠ 42) (hi : i ≤ a.length) :
    a.take i ∈ L * standsFor c ↔ i ≠ 0 ∧ a[i - 1]? = some c ∧ a.take (i - 1) ∈ L := by
  have hchr : standsFor c = {[c]} := if_neg hc
  rw [hchr, Language.mem_mul]
  constructor
  · rintro ⟨s, hs, t, rfl, heq⟩
    cases i with
    | zero => simp at heq
    | succ i =>
      rw [take_add_one, getElem?_eq_getElem hi] at heq
      obtain ⟨rfl, hls⟩ := append_inj' heq rfl
      cases hls
      exact ⟨i.succ_ne_zero, getElem?_eq_getElem hi, hs⟩
  · rintro ⟨hzr, hls, hmem⟩
    obtain ⟨i, rfl⟩ := Nat.exists_eq_succ_of_ne_zero hzr
    refine ⟨_, hmem, _, rfl, ?_⟩
    simp [take_add_one, show a[i]? = some c from hls]

theorem fnmatchInner_right (hj : j ≤ b.length) (hi : i ≤ a.length) (h : Sound a b mem) :
    Right a b i j (fnmatchInner a b i j mem) := by
  induction j generalizing i mem with
  | zero =>
    refine remember_right h ⟨?_, h⟩
    simp only [language, take_zero, map_nil, prod_nil, Language.mem_one, take_eq_nil_iff, beq_iff_eq]
    constructor
    · exact .inl
    · rintro (rfl | rfl)
      · rfl
      · simpa using hi
  | succ j ih =>
    obtain ⟨c, hc⟩ : ∃ c, b[j]? = some c := ⟨_, getElem?_eq_getElem hj⟩
    refine remember_right h ?_
    unfold Right
    rw [language_take_succ hc, hc]
    by_cases hsar : c = 42
    · subst hsar
      rw [if_pos rfl, mem_star]
      exact anyMatch_right (fun k hk mem hmem => ih (by omega) (by grind) hmem) h
    rw [if_neg (by simpa using hsar), mem_char hsar hi]
    split_ifs with hzr hls
    · exact ⟨by simp [hzr], h⟩
    · obtain ⟨hans, hsn⟩ := ih (i := i - 1) (by omega) (by omega) h
      exact ⟨by simp [hzr, hls, hans], hsn⟩
    · exact ⟨by simp [hls], h⟩

end

/-- The answer is that of the language, and no memo that is right changes an answer. -/
structure Agrees (pattern string : List UInt8) : Prop where
  answer : fnmatch pattern string 0 = .ok 0 ∧ string ∈ language pattern ∨
    fnmatch pattern string 0 = .ok FNM_NOMATCH ∧ string ∉ language pattern
  memo : ∀ mem, Sound string pattern mem → ∀ i ≤ string.length, ∀ j ≤ pattern.length,
    (fnmatchInner string pattern i j mem).1 = (fnmatchInner string pattern i j fun _ => none).1 ∧
      Sound string pattern (fnmatchInner string pattern i j mem).2

theorem agrees_iff (pattern string : List UInt8) (h : ∀ c ∈ pattern, c ≠ 63 ∧ c ≠ 91 ∧ c ≠ 92) :
    Agrees pattern string ↔ pattern.toByteArray.validateUTF8 = true := by
  have hempty : Sound string pattern fun _ => none := fun _ _ _ => by simp
  constructor
  · rintro ⟨answer, -⟩
    by_contra hutf8
    have hpanic : fnmatch pattern string 0 = .error .utf8 := if_pos (by simpa using hutf8)
    simp [hpanic] at answer
  · intro hutf8
    have hright := (fnmatchInner_right (Nat.le_refl pattern.length) (Nat.le_refl string.length) hempty).1
    rw [take_length, take_length] at hright
    have hchars : 92 ∉ pattern ∧ 63 ∉ pattern ∧ 91 ∉ pattern := by grind
    refine ⟨?_, fun mem hmem i hi j hj => ?_⟩
    · simp only [fnmatch, hutf8, hchars, ← hright]
      by_cases hanswer : (fnmatchInner string pattern string.length pattern.length fun _ => none).1 <;> simp [hanswer]
    · have hmem := fnmatchInner_right hj hi hmem
      exact ⟨Bool.eq_iff_iff.mpr (hmem.1.trans (fnmatchInner_right hj hi hempty).1.symm), hmem.2⟩

theorem agrees_iff_stars : Agrees [97, 42, 42] [97] ↔ [97, 42, 42].toByteArray.validateUTF8 = true :=
  agrees_iff _ _ (by simp)

/-- A pattern of a byte that is not UTF-8 is not matched against any string. -/
theorem agrees_fails : ¬ Agrees [255] [255] := by
  have hpanic : fnmatch [255] [255] 0 = .error .utf8 := by decide
  rintro ⟨answer, -⟩
  simp [hpanic] at answer

end TouchHLE.Libc.Fnmatch
