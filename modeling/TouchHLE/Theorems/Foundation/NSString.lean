import TouchHLE.Spec.CodeUnits

/-! Strings against sequences of code units. Every method is described by what it does to the code units of the strings
    (`view`). What goes through `setString:` is decoded to a text first, so its surrogates have to be paired. -/

namespace TouchHLE.Foundation
open Lib Spec.CodeUnits List Utf16
variable {range : NSRange}

/-! ### Loops over code units -/

/-- The code units that a loop keeps when it pushes those whose index, counted from `i`, meets a condition. -/
def keptUnits (p : Nat → Prop) [DecidablePred p] : Nat → List UInt16 → List UInt16
  | _, [] => []
  | i, c :: units => if p i then c :: keptUnits p (nextIdx i) units else keptUnits p (nextIdx i) units

theorem nextIdx_lt (i : Nat) : nextIdx i < 2 ^ 32 := Nat.mod_lt _ (Nat.two_pow_pos 32)

theorem nextIdx_add (i k : Nat) : (nextIdx i + k) % 2 ^ 32 = (i + (k + 1)) % 2 ^ 32 := by
  rw [nextIdx, Nat.mod_add_mod, Nat.add_assoc, Nat.add_comm 1 k]

section
variable {p : Nat → Prop} [DecidablePred p] {units : List UInt16}

theorem foldl_push (units : List UInt16) : ∀ i acc,
    (units.foldl (fun q c => (nextIdx q.1, if p q.1 then q.2 ++ [c] else q.2)) (i, acc)).2 =
      acc ++ keptUnits p i units := by
  induction units with
  | nil => exact fun i acc => (append_nil acc).symm
  | cons c units ih =>
    intro i acc
    rw [foldl_cons, ih, keptUnits]
    by_cases hp : p i
    · rw [if_pos hp, if_pos hp, append_assoc, singleton_append]
    · rw [if_neg hp, if_neg hp]

theorem forEachCodeUnit_push (o : StringHostObject) (acc : List UInt16) :
    forEachCodeUnit o (fun idx c res => if p idx then res ++ [c] else res) acc = acc ++ keptUnits p 0 o.iterCodeUnits :=
  foldl_push o.iterCodeUnits 0 acc

theorem keptUnits_all : ∀ {i : Nat}, i < 2 ^ 32 → (∀ k < units.length, p ((i + k) % 2 ^ 32)) →
    keptUnits p i units = units := by
  induction units with
  | nil => exact fun _ _ => rfl
  | cons c units ih =>
    intro i hi hp
    have hrs : keptUnits p (nextIdx i) units = units :=
      ih (nextIdx_lt i) fun k hk => nextIdx_add i k ▸ hp (k + 1) (Nat.succ_lt_succ hk)
    rw [keptUnits, if_pos (Nat.mod_eq_of_lt hi ▸ hp 0 (Nat.succ_pos _)), hrs]

theorem keptUnits_none : ∀ {i : Nat}, i < 2 ^ 32 → (∀ k < units.length, ¬p ((i + k) % 2 ^ 32)) →
    keptUnits p i units = [] := by
  induction units with
  | nil => exact fun _ _ => rfl
  | cons c units ih =>
    intro i hi hp
    have hrs : keptUnits p (nextIdx i) units = [] :=
      ih (nextIdx_lt i) fun k hk => nextIdx_add i k ▸ hp (k + 1) (Nat.succ_lt_succ hk)
    rw [keptUnits, if_neg (Nat.mod_eq_of_lt hi ▸ hp 0 (Nat.succ_pos _)), hrs]

theorem keptUnits_append (a b : List UInt16) : ∀ {i : Nat}, i < 2 ^ 32 →
    keptUnits p i (a ++ b) = keptUnits p i a ++ keptUnits p ((i + a.length) % 2 ^ 32) b := by
  induction a with
  | nil => exact fun hi => by rw [length_nil, Nat.add_zero, Nat.mod_eq_of_lt hi]; rfl
  | cons c a ih =>
    intro i hi
    rw [cons_append, keptUnits, keptUnits, ih (nextIdx_lt i), nextIdx_add, length_cons]
    split
    · rfl
    · rfl

/-- Beyond 2³² code units the index starts again at zero. -/
theorem keptUnits_wrap (h : 2 ^ 32 < units.length) : ∃ c rest,
    keptUnits p 0 units = keptUnits p 0 (units.take (2 ^ 32)) ++ keptUnits p 0 (c :: rest) := by
  have htk : (units.take (2 ^ 32)).length = 2 ^ 32 := length_take_of_le (Nat.le_of_lt h)
  cases hrs : units.drop (2 ^ 32) with
  | nil => exact absurd h (Nat.not_lt.mpr (drop_eq_nil_iff.mp hrs))
  | cons c rest =>
    have huis : units = units.take (2 ^ 32) ++ c :: rest := by rw [← hrs, take_append_drop]
    refine ⟨c, rest, ?_⟩
    have happ := keptUnits_append (p := p) (units.take (2 ^ 32)) (c :: rest) (Nat.two_pow_pos 32)
    rw [← huis, htk, Nat.zero_add, Nat.mod_self] at happ
    exact happ
end

theorem forEachCodeUnit_all (o : StringHostObject) (acc : List UInt16) :
    forEachCodeUnit o (fun _ c new => new ++ [c]) acc = acc ++ o.iterCodeUnits := by
  have h := forEachCodeUnit_push (p := fun _ => True) o acc
  rw [keptUnits_all (Nat.two_pow_pos 32) fun _ _ => trivial] at h
  exact h

section
variable {n : Nat} {units : List UInt16}

/-- As long as the index does not wrap, the units before an index are the first ones, and the others come after it. -/
theorem keptUnits_split (units : List UInt16) (hn : n < 2 ^ 32) (hln : units.length ≤ 2 ^ 32) :
    keptUnits (· < n) 0 units = units.take n ∧ keptUnits (· ≥ n) 0 units = units.drop n := by
  have hfs : ∀ k < (units.take n).length, (0 + k) % 2 ^ 32 < n := fun k hk => by
    rw [length_take] at hk
    omega
  have hls : ∀ k < (units.drop n).length, (0 + (units.take n).length) % 2 ^ 32 + k < 2 ^ 32 ∧
      n ≤ (0 + (units.take n).length) % 2 ^ 32 + k := fun k hk => by
    rw [length_drop] at hk
    rw [length_take]
    omega
  have hidx : (0 + (units.take n).length) % 2 ^ 32 < 2 ^ 32 := Nat.mod_lt _ (Nat.two_pow_pos 32)
  constructor
  · nth_rewrite 1 [← take_append_drop n units]
    rw [keptUnits_append _ _ (Nat.two_pow_pos 32), keptUnits_all (Nat.two_pow_pos 32) hfs, keptUnits_none hidx, append_nil]
    intro k hk
    rw [Nat.mod_eq_of_lt (hls k hk).1]
    exact Nat.not_lt.mpr (hls k hk).2
  · nth_rewrite 1 [← take_append_drop n units]
    rw [keptUnits_append _ _ (Nat.two_pow_pos 32),
      keptUnits_none (Nat.two_pow_pos 32) fun k hk => Nat.not_le.mpr (hfs k hk), keptUnits_all hidx, nil_append]
    intro k hk
    rw [Nat.mod_eq_of_lt (hls k hk).1]
    exact (hls k hk).2

theorem length_keptUnits_add (n i : Nat) (units : List UInt16) :
    (keptUnits (· < n) i units).length + (keptUnits (· ≥ n) i units).length = units.length := by
  induction units generalizing i with
  | nil => rfl
  | cons c units ih =>
    have hrs := ih (nextIdx i)
    rw [keptUnits, keptUnits, length_cons]
    by_cases hi : i < n
    · rw [if_pos hi, if_neg (Nat.not_le.mpr hi), length_cons]
      omega
    · rw [if_neg hi, if_pos (Nat.le_of_not_lt hi), length_cons]
      omega

/-- The first unit after the wrap comes before the index as well, so there are too many of these. -/
theorem lt_length_keptUnits (hn : n < 2 ^ 32) (hnot : ¬(n = 0 ∨ units.length ≤ 2 ^ 32)) :
    n < (keptUnits (· < n) 0 units).length := by
  obtain ⟨hzr, hlng⟩ := not_or.mp hnot
  obtain ⟨c, rest, hkp⟩ := keptUnits_wrap (p := (· < n)) (Nat.not_le.mp hlng)
  have hfs := (keptUnits_split (units.take (2 ^ 32)) hn (length_take_le _ _)).1
  rw [hkp, hfs, keptUnits, if_pos (Nat.pos_of_ne_zero hzr)]
  simp only [length_append, length_cons, length_take]
  omega

theorem keptUnits_lt_iff (hn : n < 2 ^ 32) : keptUnits (· < n) 0 units = units.take n ↔ n = 0 ∨ units.length ≤ 2 ^ 32 := by
  constructor
  · intro heq
    by_contra hnot
    have hln := lt_length_keptUnits hn hnot
    rw [heq] at hln
    exact Nat.not_lt.mpr (length_take_le _ _) hln
  · intro h
    rcases h with rfl | hle
    · exact keptUnits_none (Nat.two_pow_pos 32) fun k _ => Nat.not_lt_zero _
    · exact (keptUnits_split units hn hle).1

theorem keptUnits_ge_iff (hn : n < 2 ^ 32) : keptUnits (· ≥ n) 0 units = units.drop n ↔ n = 0 ∨ units.length ≤ 2 ^ 32 := by
  constructor
  · intro heq
    by_contra hnot
    have hln := lt_length_keptUnits hn hnot
    have htt := length_keptUnits_add n 0 units
    rw [heq, length_drop] at htt
    omega
  · intro h
    rcases h with rfl | hle
    · exact keptUnits_all (Nat.two_pow_pos 32) fun k _ => Nat.zero_le _
    · exact (keptUnits_split units hn hle).2

end

@[simp] theorem StringHostObject.iterCodeUnits_convert (o : StringHostObject) :
    o.convertToUtf16Inplace.iterCodeUnits = o.iterCodeUnits := by
  cases o with
  | utf8 text => rfl
  | utf16 units => rfl

/-- A string is a text exactly when its code units are well formed, and then it is the text that they encode. -/
theorem StringHostObject.toUtf8_eq (o : StringHostObject) : o.toUtf8 = Utf16.decode o.iterCodeUnits := by
  cases o with
  | utf8 text => exact (decode_encode text).symm
  | utf16 units => rfl

namespace Strings
variable {s t : Strings} {this other i : Nat} {units units' new : List UInt16} {mutable mutable' : Bool}

def view (s : Strings) : View := s.objects.map fun object => (object.hostObject.iterCodeUnits, object.mutable)

@[simp] theorem length_view (s : Strings) : s.view.length = s.objects.length := length_map _

theorem borrow_of_view (h : s.view[i]? = some (units, mutable)) :
    ∃ o, s.borrow i = .ok ⟨o, mutable⟩ ∧ o.iterCodeUnits = units := by
  rw [view, getElem?_map] at h
  obtain ⟨object, hob, heq⟩ := Option.map_eq_some_iff.mp h
  cases heq
  refine ⟨object.hostObject, ?_, rfl⟩
  rw [borrow, hob]

theorem view_setHostObject (s : Strings) (i : Nat) (o : StringHostObject) :
    (s.setHostObject i o).view = s.view.modify i fun e => (o.iterCodeUnits, e.2) := by
  refine ext_getElem? fun j => ?_
  simp only [view, setHostObject, getElem?_map, getElem?_modify]
  cases s.objects[j]? with
  | none => rfl
  | some object =>
    by_cases hij : i = j
    · simp [hij]
    · simp [hij]

theorem convertInplace_spec (h : s.view[i]? = some (units, mutable)) :
    ∃ t, s.convertInplace i = .ok (units, t) ∧ t.view = s.view := by
  obtain ⟨o, hbr, rfl⟩ := borrow_of_view h
  refine ⟨s.setHostObject i o.convertToUtf16Inplace, ?_, ?_⟩
  · rw [convertInplace, hbr]
    rfl
  · rw [view_setHostObject]
    refine ext_getElem? fun j => ?_
    by_cases hij : i = j
    · subst hij
      simp [h]
    · simp [hij]

theorem getElem?_extends {l l' : View} {e} (h : l <+: l') (hi : l[i]? = some e) : l'[i]? = some e := by
  obtain ⟨new, rfl⟩ := h
  rw [List.getElem?_append_left (List.getElem?_eq_some_iff.mp hi).1]
  exact hi

/-! ### Methods that make a string -/

structure Makes (s : Strings) (new : List UInt16) (mutable : Bool) (r : Nat × Strings) : Prop where
  fresh : r.1 = s.view.length
  view : r.2.view = s.view ++ [(new, mutable)]

theorem makes_alloc {o} (ho : o.iterCodeUnits = new) (hvw : t.view = s.view) :
    Makes s new mutable (t.alloc o mutable) := by
  refine ⟨?_, ?_⟩
  · rw [← hvw, length_view]
    rfl
  · rw [← hvw, ← ho]
    exact map_append

theorem Makes.get {r} (h : Makes s new mutable r) : r.2.view[r.1]? = some (new, mutable) := by
  rw [h.view, h.fresh, getElem?_concat_length]

theorem Makes.extends {r} (h : Makes s new mutable r) : s.view <+: r.2.view := h.view ▸ prefix_append _ _

section
variable (h : s.view[i]? = some (units, mutable))
include h

theorem length_gives : Gives (s.length i) (units.length < 2 ^ 32) fun r => r.1 = units.length ∧ r.2.view = s.view := by
  obtain ⟨t, hcv, hvw⟩ := convertInplace_spec h
  rw [length, hcv, ok_bind, lenAsNSUInteger]
  constructor
  · intro hlt
    exact ⟨(units.length, t), by rw [if_pos hlt]; rfl, rfl, hvw⟩
  · intro hge
    exact ⟨.tryFromInt, by rw [if_neg hge]; rfl⟩

theorem substringToIndex_spec (stop : Nat) :
    ∃ r, s.substringToIndex i stop = .ok r ∧ Makes s (keptUnits (· < stop) 0 units) false r := by
  obtain ⟨o, hbr, rfl⟩ := borrow_of_view h
  refine ⟨s.alloc (.utf16 (keptUnits (· < stop) 0 o.iterCodeUnits)) false, ?_, makes_alloc rfl rfl⟩
  rw [substringToIndex, hbr, ok_bind]
  simp [forEachCodeUnit_push]

theorem substringFromIndex_spec (start : Nat) :
    ∃ r, s.substringFromIndex i start = .ok r ∧ Makes s (keptUnits (· ≥ start) 0 units) false r := by
  obtain ⟨o, hbr, rfl⟩ := borrow_of_view h
  refine ⟨s.alloc (.utf16 (keptUnits (· ≥ start) 0 o.iterCodeUnits)) false, ?_, makes_alloc rfl rfl⟩
  rw [substringFromIndex, hbr, ok_bind]
  simp [forEachCodeUnit_push]

theorem substringWithRange_gives (hlct : range.location < 2 ^ 32) (hln : range.length < 2 ^ 32)
    (hle : range.location + range.length ≤ units.length) :
    Gives (s.substringWithRange i range) (range.location + range.length < 2 ^ 32)
      (Makes s ((units.drop range.location).take range.length) false) := by
  obtain ⟨t, hcv, hvw⟩ := convertInplace_spec h
  rw [substringWithRange, hcv, ok_bind, slice]
  constructor
  · intro hlt
    refine ⟨t.fromU16Vec ((units.drop range.location).take range.length), ?_, makes_alloc rfl hvw⟩
    rw [Nat.mod_eq_of_lt hlt, if_pos ⟨Nat.le_add_right _ _, hle⟩, drop_take, Nat.add_sub_cancel_left]
    rfl
  · -- The sum wraps to something below the location.
    intro hge
    have hstp : ¬range.location ≤ (range.location + range.length) % 2 ^ 32 := by omega
    exact ⟨.outOfRange, by rw [if_neg fun hand => hstp hand.1]; rfl⟩

end

theorem stringByAppendingString_gives (h : s.view[this]? = some (units, mutable))
    (h' : s.view[other]? = some (units', mutable')) :
    Gives (s.stringByAppendingString this (some other)) (units.length < 2 ^ 32 ∧ units'.length < 2 ^ 32)
      (Makes s (units ++ units') false) := by
  refine (length_gives h).bind fun thisLen _ hths => (length_gives (hths.2 ▸ h')).map fun otherLen hoh => ?_
  have hvw : otherLen.2.view = s.view := hoh.2.trans hths.2
  obtain ⟨o, hbr, rfl⟩ := borrow_of_view (hvw ▸ h)
  obtain ⟨o', hbr', rfl⟩ := borrow_of_view (hvw ▸ h')
  rw [hbr, ok_bind, hbr', ok_bind]
  simp only [forEachCodeUnit_all, nil_append]
  exact .ret (makes_alloc rfl hvw)

/-! ### Methods that change the receiver -/

def Becomes (s : Strings) (this : Nat) (new : List UInt16) (t : Strings) : Prop :=
  ∃ extra, t.view = (s.view ++ extra).modify this fun e => (new, e.2)

theorem Becomes.of_extends (h : Becomes t this new s) {u} (hext : u.view <+: t.view) :
    Becomes u this new s := by
  obtain ⟨extra, hvw⟩ := h
  obtain ⟨extra', heq⟩ := hext
  exact ⟨extra' ++ extra, by rw [hvw, ← heq, append_assoc]⟩

section
variable (h : s.view[this]? = some (units, true))
include h

theorem borrowMutable_of_view : ∃ object, s.borrowMutable this = .ok object := by
  obtain ⟨o, hbr, -⟩ := borrow_of_view h
  refine ⟨⟨o, true⟩, ?_⟩
  rw [borrowMutable, hbr]
  rfl

section
variable (h' : s.view[other]? = some (units', mutable'))
include h'

theorem setString_gives : Gives (s.setString this (some other)) (WellFormed units') fun t =>
      t.view = s.view.modify this fun e => (units', e.2) := by
  obtain ⟨object, hmtb⟩ := borrowMutable_of_view h
  obtain ⟨o, hbr, rfl⟩ := borrow_of_view h'
  rw [setString, hmtb, ok_bind, notNil, ok_bind, toRustString, hbr, ok_bind, StringHostObject.toUtf8_eq]
  constructor
  · intro hwel
    obtain ⟨text, htx⟩ := Option.isSome_iff_exists.mp hwel
    refine ⟨s.setHostObject this (.utf8 text), by rw [htx]; rfl, ?_⟩
    rw [view_setHostObject, ← encode_of_decode htx]
    rfl
  · intro hnot
    exact ⟨.fromUtf16, by rw [decode_eq_none.mpr hnot]; rfl⟩

theorem setString_becomes : Gives (s.setString this (some other)) (WellFormed units') (Becomes s this units') :=
  (setString_gives h h').imp fun t hvw => ⟨[], by rw [hvw, append_nil]⟩

theorem appendString_gives : Gives (s.appendString this (some other))
      ((units.length < 2 ^ 32 ∧ units'.length < 2 ^ 32) ∧ WellFormed (units ++ units'))
      (Becomes s this (units ++ units')) := by
  obtain ⟨object, hmtb⟩ := borrowMutable_of_view h
  rw [appendString, hmtb, ok_bind, notNil, ok_bind]
  refine (stringByAppendingString_gives h h').bind fun r _ hmk => ?_
  have hset := setString_becomes (getElem?_extends hmk.extends h) hmk.get
  exact hset.imp fun t hbcm => hbcm.of_extends hmk.extends

end
end

section
variable (h : s.view[this]? = some (units, mutable))
include h

theorem leftOfRange_spec (hlt : range.location < 2 ^ 32) (hle : range.location ≤ units.length) :
    ∃ r, s.leftOfRange this range = .ok r ∧ Makes s (units.take range.location) false r := by
  unfold leftOfRange
  by_cases hzr : range.location = 0
  · rw [if_pos hzr, hzr, take_zero]
    exact ⟨_, rfl, makes_alloc rfl rfl⟩
  · rw [if_neg hzr]
    exact (substringWithRange_gives h (Nat.two_pow_pos 32) hlt (by simpa using hle)).ok (by simpa using hlt)

theorem rightOfRange_spec {idx : Nat} (hlt : units.length < 2 ^ 32)
    (hle : idx ≤ units.length) :
    ∃ r, s.rightOfRange this idx units.length = .ok r ∧ Makes s (units.drop idx) false r := by
  unfold rightOfRange
  by_cases hend : idx = units.length
  · rw [if_pos hend, hend, drop_length]
    exact ⟨_, rfl, makes_alloc rfl rfl⟩
  · have hrs : (units.length + 2 ^ 32 - idx) % 2 ^ 32 = units.length - idx := by omega
    have htk : (units.drop idx).take (units.length - idx) = units.drop idx := take_of_length_le (Nat.le_of_eq length_drop)
    rw [if_neg hend, hrs, ← htk]
    have hsum := Nat.add_sub_cancel' hle
    exact (substringWithRange_gives h (Nat.lt_of_le_of_lt hle hlt) (Nat.lt_of_le_of_lt (Nat.sub_le _ _) hlt)
      (Nat.le_of_eq hsum)).ok (Nat.lt_of_le_of_lt (Nat.le_of_eq hsum) hlt)

omit h in
theorem deleteCharactersInRange_gives (h : s.view[this]? = some (units, true))
    (hlct : range.location < 2 ^ 32) (hle : range.location + range.length ≤ units.length) :
    Gives (s.deleteCharactersInRange this range) (units.length < 2 ^ 32 ∧
        WellFormed (units.take range.location ++ units.drop (range.location + range.length)))
      (Becomes s this (units.take range.location ++ units.drop (range.location + range.length))) := by
  obtain ⟨object, hmtb⟩ := borrowMutable_of_view h
  obtain ⟨left, hlf, hmk₁⟩ := leftOfRange_spec h hlct (Nat.le_of_add_right_le hle)
  have h₁ := getElem?_extends hmk₁.extends h
  rw [deleteCharactersInRange, hmtb, ok_bind, hlf, ok_bind]
  refine (length_gives h₁).bind fun len hlt hlen => ?_
  have h₂ := hlen.2 ▸ h₁
  obtain ⟨right, hrgh, hmk₃⟩ := rightOfRange_spec h₂ hlt hle
  have hlf₃ := getElem?_extends hmk₃.extends (hlen.2 ▸ hmk₁.get)
  have hshr : (units.take range.location).length < 2 ^ 32 ∧
      (units.drop (range.location + range.length)).length < 2 ^ 32 := by
    rw [length_take, length_drop]
    omega
  obtain ⟨res, hres, hmk₄⟩ := (stringByAppendingString_gives hlf₃ hmk₃.get).ok hshr
  have hext : s.view <+: res.2.view := hmk₁.extends.trans (hlen.2 ▸ hmk₃.extends.trans hmk₄.extends)
  rw [hlen.1, Nat.mod_eq_of_lt (Nat.lt_of_le_of_lt hle hlt), hrgh, ok_bind, hres, ok_bind]
  have hset := setString_becomes (getElem?_extends hext h) hmk₄.get
  exact hset.imp fun t hbcm => hbcm.of_extends hext

theorem mutableCopy_gives : Gives (s.mutableCopy this) (WellFormed units) (Makes s units true) := by
  have hnew : Makes s [] true (s.alloc .empty true) := makes_alloc rfl rfl
  refine (setString_gives hnew.get (getElem?_extends hnew.extends h)).map fun t hvw => .ret ⟨hnew.fresh, ?_⟩
  rw [hvw, hnew.view, hnew.fresh, modify_eq_take_cons_drop (by simp)]
  simp

end

def unitsOf (s : Strings) (string : Nat) : List UInt16 := (s.view[string]?.map (·.1)).getD []

def argUnits (s : Strings) : Option Nat → List UInt16
  | none => []
  | some string => s.unitsOf string

/-- The receiver is a string that understands the message, the argument is a string, and indexes are in range. -/
structure Proper (s : Strings) (this : Nat) (message : StringMessage (Option Nat)) : Prop where
  receiver : ∃ object, s.objects[this]? = some object ∧ (Mutates message → object.mutable = true)
  operand : Operand (fun string => ∃ i, string = some i ∧ i < s.objects.length) message
  inRange : InRange (s.unitsOf this) (message.map s.argUnits)

/-- The message returns, and it has done what the operation on code units says. -/
def AnswersAsList (s : Strings) (this : Nat) (message : StringMessage (Option Nat)) : Prop :=
  ∃ reply t, s.send this message = .ok (reply, t) ∧
    Answered s.view this (s.unitsOf this) (message.map s.argUnits) reply t.view

section
variable {message : StringMessage (Option Nat)} {P : Prop}

theorem Proper.view (h : s.Proper this message) :
    ∃ mutable, s.view[this]? = some (s.unitsOf this, mutable) ∧ (Mutates message → mutable = true) := by
  obtain ⟨object, hob, hmtt⟩ := h.receiver
  have hvw : s.view[this]? = some (object.hostObject.iterCodeUnits, object.mutable) := by
    rw [Strings.view, getElem?_map, hob]
    rfl
  refine ⟨object.mutable, ?_, hmtt⟩
  rw [unitsOf, hvw]
  rfl

theorem view_of_operand {string} (h : ∃ i, string = some i ∧ i < s.objects.length) :
    ∃ i mutable, string = some i ∧ s.view[i]? = some (s.argUnits string, mutable) := by
  obtain ⟨i, rfl, hi⟩ := h
  obtain ⟨e, he⟩ : ∃ e, s.view[i]? = some e := ⟨_, getElem?_eq_getElem (length_view s ▸ hi)⟩
  refine ⟨i, e.2, rfl, ?_⟩
  rw [argUnits, unitsOf, he]
  rfl

theorem answers_iff (h : Gives (s.send this message) P fun r =>
    Answered s.view this (s.unitsOf this) (message.map s.argUnits) r.1 r.2.view) : s.AnswersAsList this message ↔ P := by
  constructor
  · rintro ⟨reply, t, hsnd, -⟩
    by_contra hnot
    obtain ⟨e, heo⟩ := h.error hnot
    rw [hsnd] at heo
    cases heo
  · intro hp
    obtain ⟨r, hsnd, hanw⟩ := h.ok hp
    exact ⟨r.1, r.2, hsnd, hanw⟩

theorem answered_of_extends {message} {reply} (hext : s.view <+: t.view)
    (hrcv : (perform units message).2 = units) (hrpl : Replies s.view t.view reply (perform units message).1) :
    Answered s.view this units message reply t.view where
  reply := hrpl
  receiver := fun mutable h => by
    rw [hrcv]
    exact getElem?_extends hext h
  others := fun i hi _ => by
    have he := getElem?_eq_getElem hi
    rw [getElem?_extends hext he, he]

theorem Makes.answered {message} {r} (h : Makes s new mutable r)
    (hpf : perform units message = (.sequence new mutable, units)) :
    Answered s.view this units message (.object r.1) r.2.view := by
  refine answered_of_extends h.extends ?_ ?_
  · rw [hpf]
  · rw [hpf]
    exact ⟨Nat.le_of_eq h.fresh.symm, h.get⟩

theorem Becomes.answered {message} (h : Becomes s this new t)
    (hpf : perform units message = (.nothing, new)) : Answered s.view this units message .nothing t.view := by
  obtain ⟨extra, hvw⟩ := h
  refine ⟨by rw [hpf]; trivial, fun mutable he => ?_, fun i hi hne => ?_⟩
  · rw [hvw, hpf, getElem?_modify, getElem?_extends (prefix_append _ _) he]
    simp
  · rw [hvw, getElem?_modify, getElem?_append_left hi]
    simp [hne.symm]

/-- A message that makes a string, or that changes the receiver, is answered whenever the method returns. -/
theorem answers_of_makes {r} (hsnd : s.send this message = withObject r)
    (h : Gives r P (Makes s new mutable))
    (hpf : perform (s.unitsOf this) (message.map s.argUnits) = (.sequence new mutable, s.unitsOf this)) :
    s.AnswersAsList this message ↔ P := by
  refine answers_iff ?_
  rw [hsnd]
  exact h.map fun r hmk => .ret (hmk.answered hpf)

theorem answers_of_becomes {r} (hsnd : s.send this message = withNothing r)
    (h : Gives r P (Becomes s this new)) (hpf : perform (s.unitsOf this) (message.map s.argUnits) = (.nothing, new)) :
    s.AnswersAsList this message ↔ P := by
  refine answers_iff ?_
  rw [hsnd]
  exact h.map fun t hbcm => .ret (hbcm.answered hpf)

theorem answers_iff_eq {r} {want} (hsnd : s.send this message = .ok (.object r.1, r.2))
    (hmk : Makes s new false r)
    (hpf : perform (s.unitsOf this) (message.map s.argUnits) = (.sequence want false, s.unitsOf this)) :
    s.AnswersAsList this message ↔ new = want := by
  constructor
  · rintro ⟨reply, t, hsnd', hanw⟩
    rw [hsnd] at hsnd'
    cases hsnd'
    have hrpl := hanw.reply
    rw [hpf] at hrpl
    have hvw := hrpl.2
    rw [hmk.get] at hvw
    cases hvw
    rfl
  · rintro rfl
    exact ⟨_, _, hsnd, hmk.answered hpf⟩

end

/-- A message with arguments in range is answered as the operation on sequences of code units says exactly when the
    lengths that it counts fit and what it stores is the encoding of a text. -/
theorem answersAsList_iff {message : StringMessage (Option Nat)} (h : s.Proper this message) :
    s.AnswersAsList this message ↔ Representable (s.unitsOf this) (message.map s.argUnits) := by
  obtain ⟨mutable, hview, hmutates⟩ := h.view
  cases message with
  | length =>
    refine answers_iff ((length_gives hview).map fun r hr => .ret ?_)
    exact answered_of_extends (hr.2 ▸ prefix_rfl) rfl hr.1
  | characterAtIndex index =>
    have hc := getElem?_eq_getElem h.inRange.2
    obtain ⟨t, hconvert, hview'⟩ := convertInplace_spec hview
    refine iff_of_true ⟨.unit _, t, ?_, answered_of_extends (hview' ▸ prefix_rfl) rfl hc.symm⟩ trivial
    rw [send, characterAtIndex, hconvert, ok_bind, unitAt, hc]
    rfl
  | substringToIndex stop =>
    obtain ⟨r, hr, hmakes⟩ := substringToIndex_spec hview stop
    have hsend : s.send this (.substringToIndex stop) = .ok (.object r.1, r.2) := by
      rw [send, withObject, hr]
      rfl
    rw [answers_iff_eq hsend hmakes rfl, keptUnits_lt_iff h.inRange.1]
    rfl
  | substringFromIndex start =>
    obtain ⟨r, hr, hmakes⟩ := substringFromIndex_spec hview start
    have hsend : s.send this (.substringFromIndex start) = .ok (.object r.1, r.2) := by
      rw [send, withObject, hr]
      rfl
    rw [answers_iff_eq hsend hmakes rfl, keptUnits_ge_iff h.inRange.1]
    rfl
  | substringWithRange range =>
    obtain ⟨hlocation, hlength, hle⟩ := h.inRange
    exact answers_of_makes rfl (substringWithRange_gives hview hlocation hlength hle) rfl
  | stringByAppendingString string =>
    obtain ⟨other, mutable', rfl, hview'⟩ := view_of_operand h.operand
    exact answers_of_makes rfl (stringByAppendingString_gives hview hview') rfl
  | appendString string =>
    obtain rfl := hmutates trivial
    obtain ⟨other, mutable', rfl, hview'⟩ := view_of_operand h.operand
    exact (answers_of_becomes rfl (appendString_gives hview hview') rfl).trans and_assoc
  | deleteCharactersInRange range =>
    obtain rfl := hmutates trivial
    exact answers_of_becomes rfl (deleteCharactersInRange_gives hview h.inRange.1 h.inRange.2.2) rfl
  | setString string =>
    obtain rfl := hmutates trivial
    obtain ⟨other, mutable', rfl, hview'⟩ := view_of_operand h.operand
    exact answers_of_becomes rfl (setString_becomes hview hview') rfl
  | mutableCopy => exact answers_of_makes rfl (mutableCopy_gives hview) rfl

def halves : Strings := ⟨[⟨.utf16 [0xD83D], true⟩, ⟨.utf16 [0xDE00], false⟩]⟩

/-- They can be joined. -/
theorem answersAsList_halves : halves.AnswersAsList 0 (.appendString (some 1)) :=
  have hproper := ⟨⟨_, rfl, fun _ => rfl⟩, ⟨1, rfl, by decide⟩, trivial⟩
  (answersAsList_iff hproper).mpr ⟨by decide, by decide, by decide⟩

/-- A mutable copy of one of them panics. -/
theorem mutableCopy_of_half : halves.Proper 0 .mutableCopy ∧ ¬halves.AnswersAsList 0 .mutableCopy := by
  refine ⟨⟨⟨_, rfl, fun h => h.elim⟩, trivial, trivial⟩, ?_⟩
  rintro ⟨reply, t, hsend, -⟩
  cases hsend
end Strings

end TouchHLE.Foundation
