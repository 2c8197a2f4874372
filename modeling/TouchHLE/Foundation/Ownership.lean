import Mathlib.Tactic.Common

/-! The references that methods of `ns_string.rs`, `ns_character_set.rs` and `ns_keyed_unarchiver.rs` take and give up inside
    an autorelease pool. -/

namespace TouchHLE.Foundation

/-- The address of the next object, the retain counts once the pool has been drained, and the references that others own. -/
structure Pool where
  next : Nat
  refs : Nat → Int
  owned : Nat → Int

namespace Pool

def add (s : Pool) (object : Nat) (n : Int) : Pool := { s with refs := fun x => s.refs x + if x = object then n else 0 }

def retain (s : Pool) (object : Nat) : Pool := s.add object 1

def autorelease (s : Pool) (object : Nat) : Pool := s.add object (-1)

def alloc (s : Pool) : Pool := { s.retain s.next with next := s.next + 1 }

def keep (s : Pool) (object : Nat) : Pool :=
  { s.retain object with owned := fun x => s.owned x + if x = object then 1 else 0 }

def temporary (s : Pool) : Pool := s.alloc.autorelease s.next

/-- With what the references depend on: a range and a length, the lengths of the components, and, if the data is an archive,
    how many objects it has besides the root and the references that they keep. -/
inductive Call
  | stringByAppendingString
  | appendString
  | deleteCharactersInRange (location rangeLength length : Nat)
  | stringByReplacingOccurrencesOfString
  | pathWithComponents (lengths : List Nat)
  | invertedSet
  | unarchiveObjectWithData (archive : Option (Nat × List Nat))

def stringByAppendingString (s : Pool) : Pool := s.alloc

def call (s : Pool) : Call → Pool
  -- `setString:` copies the text
  | .stringByAppendingString | .appendString => s.stringByAppendingString
  | .deleteCharactersInRange location rangeLength length =>
    let s := if location = 0 then s else s.temporary
    let s := if location + rangeLength = length then s else s.temporary
    s.stringByAppendingString
  | .stringByReplacingOccurrencesOfString =>
    -- three substrings and the result of `string_by_replacing_occurrences_inner`
    let s := s.temporary.temporary.temporary.temporary
    s.stringByAppendingString.stringByAppendingString
  | .pathWithComponents lengths =>
    -- an empty string, the enumerator, and the paths
    if lengths = [] then s
    else lengths.foldl (fun s length => if length = 0 then s else s.temporary) s.alloc.temporary
  | .invertedSet => s.alloc
  | .unarchiveObjectWithData none => s.alloc
  | .unarchiveObjectWithData (some (objects, kept)) =>
    let root := s.alloc.next
    let s := kept.foldl keep ((List.range objects).foldl (fun s _ => s.alloc) s.alloc.alloc)
    -- `decodeObjectForKey:` autoreleases the root as well
    ((s.retain root).autorelease root).autorelease root

def spare (s : Pool) (object : Nat) : Int := s.refs object - s.owned object

def Balanced (s t : Pool) : Prop := ∀ object, t.spare object = s.spare object

variable {s : Pool}

theorem spare_add (object : Nat) (n : Int) (x : Nat) : (s.add object n).spare x = s.spare x + if x = object then n else 0 := by
  simp only [spare, add]
  omega

theorem spare_alloc (x : Nat) : s.alloc.spare x = s.spare x + if x = s.next then 1 else 0 := spare_add s.next 1 x

theorem spare_keep (object x : Nat) : (s.keep object).spare x = s.spare x := by
  simp only [spare, keep, retain, add]
  omega

theorem spare_temporary (x : Nat) : s.temporary.spare x = s.spare x := by
  rw [temporary, autorelease, spare_add, spare_alloc]
  split <;> omega

theorem spare_foldl {α : Type} {f : Pool → α → Pool} {x : Nat} (hf : ∀ s a, s.spare x ≤ (f s a).spare x) (l : List α) (s : Pool) :
    s.spare x ≤ (l.foldl f s).spare x := by
  induction l generalizing s with
  | nil => exact Int.le_refl _
  | cons a l ih => exact Int.le_trans (hf s a) (ih (f s a))

theorem call_none (s : Pool) : s.call (.pathWithComponents []) = s := rfl

theorem spare_le_alloc (s : Pool) (x : Nat) : s.spare x ≤ s.alloc.spare x := by
  rw [spare_alloc]
  split <;> omega

theorem alloc_leaks {p : Pool} (h : ∀ x, p.spare x = s.spare x) :
    ∃ y, ∀ x, s.spare x + (if x = y then 1 else 0) ≤ p.alloc.spare x :=
  ⟨p.next, fun x => Int.le_of_eq (by rw [spare_alloc, h])⟩

/-- Every other call leaves an object behind. -/
theorem call_leaks (s : Pool) {c : Call} (hc : c ≠ .pathWithComponents []) :
    ∃ y, ∀ x, s.spare x + (if x = y then 1 else 0) ≤ (s.call c).spare x := by
  cases c with
  | stringByAppendingString | appendString | invertedSet => exact alloc_leaks fun _ => rfl
  | deleteCharactersInRange location rangeLength length =>
    refine alloc_leaks fun x => ?_
    split_ifs <;> simp [spare_temporary]
  | stringByReplacingOccurrencesOfString =>
    obtain ⟨y, hy⟩ := alloc_leaks (s := s) (p := s.temporary.temporary.temporary.temporary)
      fun x => by simp [spare_temporary]
    exact ⟨y, fun x => Int.le_trans (hy x) (spare_le_alloc _ x)⟩
  | pathWithComponents lengths =>
    rw [call, if_neg fun hnil => hc (by rw [hnil])]
    refine ⟨s.next, fun x => ?_⟩
    rw [← spare_alloc, ← spare_temporary]
    refine spare_foldl (fun s length => ?_) _ _
    split
    · exact Int.le_refl _
    · exact Int.le_of_eq (spare_temporary x).symm
  | unarchiveObjectWithData archive =>
    refine ⟨s.next, fun x => ?_⟩
    rw [← spare_alloc]
    cases archive with
    | none => exact Int.le_refl _
    | some objects =>
      have hrt := spare_alloc (s := s.alloc) x
      have hobj := spare_foldl (fun s _ => spare_le_alloc s x) (.range objects.1) s.alloc.alloc
      have hkp := spare_foldl (fun s object => Int.le_of_eq (spare_keep object x).symm) objects.2
        ((List.range objects.1).foldl (fun s _ => s.alloc) s.alloc.alloc)
      rw [call, autorelease, spare_add, autorelease, spare_add, retain, spare_add]
      by_cases hx : x = s.alloc.next
      · simp only [if_pos hx] at hrt ⊢
        omega
      · simp only [if_neg hx] at hrt ⊢
        omega

theorem spare_le_call (x : Nat) (s : Pool) (c : Call) : s.spare x ≤ (s.call c).spare x := by
  by_cases hc : c = .pathWithComponents []
  · exact Int.le_of_eq (by rw [hc, call_none])
  · obtain ⟨y, hy⟩ := call_leaks s hc
    have hle := hy x
    split at hle <;> omega

/-- Nothing is left behind exactly if all calls are for paths without components. -/
theorem balanced_iff (s : Pool) (calls : List Call) :
    Balanced s (calls.foldl call s) ↔ ∀ c ∈ calls, c = .pathWithComponents [] := by
  induction calls with
  | nil => simp [Balanced]
  | cons c calls ih =>
    rw [List.foldl_cons, List.forall_mem_cons]
    by_cases hc : c = .pathWithComponents []
    · rw [hc, call_none, ih, eq_self, true_and]
    · obtain ⟨y, hy⟩ := call_leaks s hc
      refine iff_of_false (fun h => ?_) fun h => hc h.1
      have hleak := hy y
      have hlater := spare_foldl (spare_le_call y) calls (s.call c)
      rw [h y] at hlater
      omega

/-- The result of `stringByAppendingString:` is still there when the pool has been drained, and nobody owns it. -/
theorem appended_unbalanced : ¬Balanced ⟨0, fun _ => 0, fun _ => 0⟩ (call ⟨0, fun _ => 0, fun _ => 0⟩ .stringByAppendingString) :=
  fun h => absurd (h 0) (by decide)

end Pool
end TouchHLE.Foundation
