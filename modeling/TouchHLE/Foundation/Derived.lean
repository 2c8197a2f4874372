import TouchHLE.Theorems.Foundation.DictionaryReferences

/-! The arrays and enumerators that `ns_set.rs` and `ns_dictionary.rs` make of a collection, and the references to their
    elements. A set does not retain what its array releases. -/

namespace TouchHLE.Foundation
open Lib List

/-- The methods of sets, which are dictionaries without values, and those of dictionaries. An enumerator keeps its array and
    goes through the same elements. -/
inductive Derivation where
  | allObjects | setObjectEnumerator | allKeys | allValues | objectEnumerator
deriving DecidableEq

namespace DictionaryHostObject

def keys (self : DictionaryHostObject) : List (Option Id) := self.map.pairs.map fun pair => some pair.1

def values (self : DictionaryHostObject) : List (Option Id) := self.map.pairs.map Prod.snd

end DictionaryHostObject

/-- The elements of the array and the counts; `from_vec` takes its elements without retaining them. -/
def Derivation.call (d : DictionaryHostObject) (refs : Refs) : Derivation → List (Option Id) × Refs
  | .allObjects | .setObjectEnumerator => (d.keys, refs)
  | .allKeys => (d.keys, d.keys.foldl retain refs)
  | .allValues | .objectEnumerator => (d.values, d.values.foldl retain refs)

def arrayDealloc (array : List (Option Id)) (refs : Refs) : Refs := array.foldl release refs

/-- The array has a reference for each element. Whatever references others have in the meantime, `others` at first and
    `later` when the array is deallocated, its elements are alive until then, and after that only those of others are left. -/
structure OwnsElements (others : Id → Nat) (array : List (Option Id)) (refs : Refs) : Prop where
  held : ∀ o, refs o = others o + array.count (some o)
  alive : ∀ (later : Id → Nat) o, some o ∈ array → 0 < refs o + (later o - others o)
  returned : ∀ (later : Id → Nat) o, arrayDealloc array (fun o => refs o + (later o - others o)) o = later o

theorem foldl_add (n : Int) (array : List (Option Id)) (refs : Refs) (o : Id) :
    array.foldl (fun refs x => refs.add x n) refs o = refs o + n * array.count (some o) := by
  induction array generalizing refs with
  | nil => simp
  | cons x array ih =>
    rw [foldl_cons, ih, Refs.add_apply, count_cons, one]
    simp only [beq_iff_eq]
    split
    · rw [Int.natCast_add, Int.mul_add]
      omega
    · simp

variable {others : Id → Nat} {array : List (Option Id)} {refs : Refs}

theorem ownsElements_iff : OwnsElements others array refs ↔ ∀ o, refs o = others o + array.count (some o) := by
  refine ⟨OwnsElements.held, fun h => ⟨h, fun later o ho => ?_, fun later o => ?_⟩⟩
  · have hpos := count_pos_iff.mpr ho
    rw [h]
    omega
  · have heq := foldl_add (-1) array (fun o => refs o + (later o - others o)) o
    rw [h] at heq
    exact heq.trans (by omega)

theorem ownsElements_retained (others : Id → Nat) (array : List (Option Id)) :
    OwnsElements others array (array.foldl retain fun o => others o) :=
  ownsElements_iff.mpr fun o => (foldl_add 1 array _ o).trans (by rw [one_mul])

/-- What is made of a set owns its elements only if there are none. -/
theorem ownsElements_call_iff (m : Derivation) (d : DictionaryHostObject) (others : Id → Nat) :
    OwnsElements others (m.call d fun o => others o).1 (m.call d fun o => others o).2 ↔
      (m = .allObjects ∨ m = .setObjectEnumerator → d.map.pairs = []) := by
  have hset : OwnsElements others d.keys (fun o => others o) ↔ d.map.pairs = [] := by
    rw [ownsElements_iff]
    refine ⟨fun h => eq_nil_iff_forall_not_mem.mpr fun pair hp => ?_, fun h o => by simp [DictionaryHostObject.keys, h]⟩
    have hpos : 0 < d.keys.count (some pair.1) := count_pos_iff.mpr (mem_map_of_mem hp)
    have heq := h pair.1
    omega
  cases m with
  | allObjects => exact hset.trans (by simp)
  | setObjectEnumerator => exact hset.trans (by simp)
  | allKeys => exact iff_of_true (ownsElements_retained others d.keys) (by simp)
  | allValues => exact iff_of_true (ownsElements_retained others d.values) (by simp)
  | objectEnumerator => exact iff_of_true (ownsElements_retained others d.values) (by simp)

/-- The program owns the object. When it has released it, the array of a set still refers to it. -/
theorem ownsElements_fails :
    let a : Id := ⟨4, by decide, by decide⟩
    let null : Id := ⟨8, by decide, by decide⟩
    let set := (DictionaryHostObject.empty.insert ⟨Id.bits, (· == ·)⟩ (fun _ => 0) a a null false).1
    ¬OwnsElements (fun _ => 1) (Derivation.allObjects.call set fun _ => 1).1 (Derivation.allObjects.call set fun _ => 1).2 :=
  fun h => absurd (h.alive (fun _ => 0) ⟨4, by decide, by decide⟩ mem_cons_self) (by decide)

end TouchHLE.Foundation
