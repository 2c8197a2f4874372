import Mathlib.Data.List.SplitLengths
import TouchHLE.Foundation.NSArray

/-! Fast enumeration: `fast_enumeration_helper` in `touchHLE/src/frameworks/foundation/ns_enumerator.rs`, for arrays and
    dictionaries. `nil` is `none`, and the memory is the one that the buffers for objects lie in. -/

namespace TouchHLE.Foundation
open Lib List Function
variable {ι α : Type}

abbrev Slots (α : Type) := Nat → Option α

structure NSFastEnumerationState (ι : Type) where
  state : Nat
  itemsPtr : Nat
  mutationsPtr : ι

section
variable (this : ι) (iterFn : Nat → Except ArrayPanic (Option α)) (startIndex stackbuf : Nat)

def fill : Nat → Nat → Slots α → Except ArrayPanic (Nat × Slots α)
  | 0, batchCount, mem => .ok (batchCount, mem)
  | n + 1, batchCount, mem => do
    match ← iterFn ((startIndex + batchCount) % 2 ^ 32) with
    | some object => fill n (batchCount + 1) (update mem (stackbuf + 4 * batchCount) (some object))
    | none => .ok (batchCount, mem)

def fastEnumerationHelper (state : NSFastEnumerationState ι) (len : Nat) (mem : Slots α) :
    Except ArrayPanic (Nat × NSFastEnumerationState ι × Slots α) := do
  let (batchCount, mem) ← fill iterFn state.state stackbuf len 0 mem
  .ok (batchCount, ⟨(state.state + batchCount) % 2 ^ 32, stackbuf, this⟩, mem)

end

def enumerateArray (s : Arrays ι α) (objects this : ι) (stackbuf : Nat) (state : NSFastEnumerationState ι) (len : Nat)
    (mem : Slots α) : Except ArrayPanic (Nat × NSFastEnumerationState ι × Slots α) := do
  let count ← s.count objects
  fastEnumerationHelper this (fun idx => if idx < count then (s.objectAtIndex objects idx).map some else .ok none)
    stackbuf state len mem

def store (mem : Slots α) (ptr : Nat) : List α → Slots α
  | [] => mem
  | object :: rest => store (update mem ptr (some object)) (ptr + 4) rest

theorem store_before {x : Nat} (batch : List α) {mem : Slots α} {ptr : Nat} (h : x < ptr) :
    store mem ptr batch x = mem x := by
  induction batch generalizing mem ptr with
  | nil => rfl
  | cons object rest ih => rw [store, ih (by omega), update_of_ne (by omega)]

theorem store_after {x : Nat} (batch : List α) {mem : Slots α} {ptr : Nat} (h : ptr + 4 * batch.length ≤ x) :
    store mem ptr batch x = mem x := by
  induction batch generalizing mem ptr with
  | nil => rfl
  | cons object rest ih =>
    rw [length_cons] at h
    rw [store, ih (by omega), update_of_ne (by omega)]

theorem map_store (batch : List α) (mem : Slots α) (ptr : Nat) :
    (range batch.length).map (fun i => store mem ptr batch (ptr + 4 * i)) = batch.map some := by
  induction batch generalizing mem ptr with
  | nil => rfl
  | cons object rest ih =>
    have hfs : store (update mem ptr (some object)) (ptr + 4) rest ptr = some object := by
      rw [store_before rest (by omega), update_self]
    rw [length_cons, range_succ_eq_map, map_cons, map_cons, map_map, store, ← ih (update mem ptr (some object)) (ptr + 4)]
    exact congr (congrArg cons hfs) (map_congr_left fun i _ => congrArg _ (show ptr + 4 * (i + 1) = _ by omega))

section
variable {objects : List α} (hlen : objects.length < 2 ^ 32) {i stackbuf : Nat} (hi : i < 2 ^ 32)
include hlen hi

/-- The loop stores the objects from the index on. -/
theorem fill_eq {iterFn : Nat → Except ArrayPanic (Option α)} (h : ∀ i, iterFn i = .ok objects[i]?) (n : Nat) :
    ∀ b mem, b = 0 ∨ i + b ≤ objects.length → fill iterFn i stackbuf n b mem =
      .ok (b + ((objects.drop (i + b)).take n).length, store mem (stackbuf + 4 * b) ((objects.drop (i + b)).take n)) := by
  induction n with
  | zero => exact fun _ _ _ => rfl
  | succ n ih =>
    intro b mem hb
    rw [fill, h, ok_bind, Nat.mod_eq_of_lt (by omega)]
    by_cases hlt : i + b < objects.length
    · simp only [getElem?_eq_getElem hlt]
      rw [ih (b + 1) _ (.inr hlt), drop_eq_getElem_cons hlt, take_succ_cons, length_cons, store]
      simp only [Nat.add_assoc, Nat.add_comm 1, Nat.mul_add, Nat.mul_one]
    · simp only [getElem?_eq_none (Nat.le_of_not_lt hlt), drop_eq_nil_of_le (Nat.le_of_not_lt hlt)]
      rfl

theorem enumerateArray_eq {s : Arrays ι α} {array this : ι} {items len : Nat} {changes : ι} {mem : Slots α} (h : s.hostObject array = some objects) :
    enumerateArray s array this stackbuf ⟨i, items, changes⟩ len mem = .ok (((objects.drop i).take len).length,
      ⟨i + ((objects.drop i).take len).length, stackbuf, this⟩, store mem stackbuf ((objects.drop i).take len)) := by
  have hb : s.borrow array = .ok objects := by rw [Arrays.borrow, h]
  have hcn : s.count array = .ok objects.length := by rw [Arrays.count, hb, ok_bind, if_pos hlen]
  have hans : ∀ i, (if i < objects.length then (s.objectAtIndex array i).map some else .ok none) =
      (.ok objects[i]? : Except ArrayPanic (Option α)) := by
    intro i
    by_cases hi : i < objects.length
    · simp [Arrays.objectAtIndex, hb, hi, Except.map]
    · simp [hi]
  have hend : i + ((objects.drop i).take len).length < 2 ^ 32 := by
    simp only [length_take, length_drop]
    omega
  simp only [enumerateArray, hcn, ok_bind, fastEnumerationHelper, fill_eq hlen hi hans len 0 mem (.inl rfl), Nat.zero_add,
    Nat.add_zero, Nat.mul_zero, Nat.mod_eq_of_lt hend]

end

/-- The first empty batch ends the list. -/
theorem splitLengths_ends {ns : List Nat} (hpos : ∀ n ∈ ns, 0 < n) (l : List α) :
    (splitLengths ns l).Pairwise (fun batch later => batch = [] → later = []) ∧
      ([] ∈ splitLengths ns l → (splitLengths ns l).flatten = l) ∧ (l.length < ns.length → [] ∈ splitLengths ns l) := by
  induction ns generalizing l with
  | nil => simp
  | cons n ns ih =>
    have hn := hpos n mem_cons_self
    have hrs := ih fun m hm => hpos m (mem_cons_of_mem _ hm)
    obtain ⟨hpr, hends, hlate⟩ := hrs (l.drop n)
    have hnil : l.take n = [] → l = [] := fun h => (take_eq_nil_iff.mp h).resolve_left (Nat.ne_of_gt hn)
    have hem : ∀ batch ∈ splitLengths ns ([] : List α), batch = [] :=
      flatten_eq_nil_iff.mp (flatten_splitLengths _ _ (Nat.zero_le _))
    rw [splitLengths_cons]
    refine ⟨pairwise_cons.mpr ⟨fun later hl h => ?_, hpr⟩, fun h => ?_, fun h => ?_⟩
    · rw [hnil h, drop_nil] at hl
      exact hem later hl
    · rcases mem_cons.mp h with h | h
      · rw [hnil h.symm, take_nil, drop_nil, flatten_cons, flatten_eq_nil_iff.mpr hem, append_nil]
      · rw [flatten_cons, hends h, take_append_drop]
    · cases l with
      | nil => exact mem_cons.mpr (.inl take_nil.symm)
      | cons x l =>
        refine mem_cons_of_mem _ (hlate ?_)
        simp only [length_drop, length_cons] at h ⊢
        omega

variable [DecidableEq ι]

/-- A dictionary enumerates a new array of its keys. -/
inductive Collection (ι α : Type) where
  | array
  | dictionary (keys : List α) (allKeys : ι)

namespace Collection
variable (c : Collection ι α) (s : Arrays ι α) (this : ι)

def elements : Option (List α) :=
  match c with
  | .array => s.hostObject this
  | .dictionary keys _ => some keys

def countByEnumeratingWithState :
    Nat → NSFastEnumerationState ι → Nat → Slots α → Except ArrayPanic (Nat × NSFastEnumerationState ι × Slots α) :=
  match c with
  | .array => enumerateArray s this this
  | .dictionary keys allKeys => enumerateArray (s.setArray allKeys keys) allKeys this

end Collection

/-- A call, with a buffer of its own and whatever memory holds then. -/
structure Turn (objects : List α) (this : ι) where
  collection : Collection ι α
  arrays : Arrays ι α
  unmodified : collection.elements arrays this = some objects
  stackbuf : Nat
  len : Nat
  positive : 0 < len
  mem : Slots α

variable {objects : List α} {this : ι}

def Turn.call (turn : Turn objects this) (state : NSFastEnumerationState ι) :
    Except ArrayPanic (Nat × NSFastEnumerationState ι × Slots α) :=
  turn.collection.countByEnumeratingWithState turn.arrays this turn.stackbuf state turn.len turn.mem

def enumerate : List (Turn objects this) → NSFastEnumerationState ι → Except ArrayPanic (List (List (Option α)))
  | [], _ => .ok []
  | turn :: turns, state => do
    let (count, state, mem) ← turn.call state
    let batches ← enumerate turns state
    .ok ((range count).map (fun i => mem (state.itemsPtr + 4 * i)) :: batches)

section
variable {i items : Nat} {changes : ι} (hlen : objects.length < 2 ^ 32)
include hlen

/-- A call goes on from the index in the state. -/
theorem Turn.call_eq (hi : i < 2 ^ 32) (turn : Turn objects this) : turn.call ⟨i, items, changes⟩ =
    .ok (((objects.drop i).take turn.len).length, ⟨i + ((objects.drop i).take turn.len).length, turn.stackbuf, this⟩,
      store turn.mem turn.stackbuf ((objects.drop i).take turn.len)) := by
  obtain ⟨c, s, hmod, stackbuf, len, -, mem⟩ := turn
  cases c with
  | array => exact enumerateArray_eq hlen hi hmod
  | dictionary keys allKeys =>
    cases hmod
    exact enumerateArray_eq hlen hi (update_self ..)

theorem enumerate_eq (turns : List (Turn objects this)) (hi : i ≤ objects.length) : enumerate turns ⟨i, items, changes⟩ =
    .ok ((splitLengths (turns.map (·.len)) (objects.drop i)).map (·.map some)) := by
  induction turns generalizing i items changes with
  | nil => rfl
  | cons turn turns ih =>
    have hcn : ((objects.drop i).take turn.len).length = min turn.len (objects.length - i) := by simp
    have hdrop : objects.drop (i + ((objects.drop i).take turn.len).length) = (objects.drop i).drop turn.len := by
      rw [drop_drop, hcn]
      rcases Nat.le_total turn.len (objects.length - i) with h | h
      · rw [Nat.min_eq_left h]
      · rw [drop_eq_nil_of_le (by omega), drop_eq_nil_of_le (by omega)]
    rw [enumerate, turn.call_eq hlen (by omega), ok_bind]
    dsimp only
    rw [ih (by omega), ok_bind, map_store, hdrop]
    simp

end

/-- The batches are the collection in order, once, up to the first empty one, which comes. -/
theorem enumerate_exactly_once (hlen : objects.length < 2 ^ 32) (items : Nat) (changes : ι) (turns : List (Turn objects this)) :
    (∃ batches, enumerate turns ⟨0, items, changes⟩ = .ok batches ∧
      batches.length = turns.length ∧ (objects.length < turns.length → [] ∈ batches) ∧
      ([] ∈ batches → batches.flatten = objects.map some) ∧ batches.Pairwise fun batch later => batch = [] → later = []) ∧
    ∀ (turn : Turn objects this) (state : NSFastEnumerationState ι), state.state < 2 ^ 32 → ∃ count state' mem,
      turn.call state = .ok (count, state', mem) ∧ count ≤ turn.len ∧
      ∀ x, x < turn.stackbuf ∨ turn.stackbuf + 4 * count ≤ x → mem x = turn.mem x := by
  have hpos : ∀ n ∈ turns.map (·.len), 0 < n := by
    intro n hn
    obtain ⟨turn, -, rfl⟩ := mem_map.mp hn
    exact turn.positive
  obtain ⟨hpr, hends, hlate⟩ := splitLengths_ends hpos objects
  have hnil : ∀ batches : List (List α), [] ∈ batches.map (·.map some) ↔ [] ∈ batches := by simp
  refine ⟨⟨_, enumerate_eq hlen turns (Nat.zero_le _), by simp, fun h => ?_, fun h => ?_, ?_⟩, ?_⟩
  · exact (hnil _).mpr (hlate (by simpa using h))
  · rw [← map_flatten, drop_zero, hends ((hnil _).mp h)]
  · exact pairwise_map.mpr (hpr.imp fun h hb => by simpa using h (by simpa using hb))
  · rintro turn ⟨i, items, changes⟩ hi
    refine ⟨_, _, _, turn.call_eq hlen hi, length_take_le .., fun x hx => ?_⟩
    exact hx.elim (store_before _) (store_after _)

def turnOfOne : Turn [true] () where
  collection := .array
  arrays := Arrays.start.setArray () [true]
  unmodified := rfl
  stackbuf := 0x200
  len := 1
  positive := Nat.one_pos
  mem := fun _ => none

theorem enumerate_one : ∃ batches, enumerate [turnOfOne, turnOfOne] ⟨0, 0, ()⟩ = .ok batches ∧ batches.flatten = [some true] := by
  obtain ⟨⟨batches, hrun, -, hends, hflat, -⟩, -⟩ := enumerate_exactly_once (by decide) 0 () [turnOfOne, turnOfOne]
  exact ⟨batches, hrun, hflat (hends (by decide))⟩

end TouchHLE.Foundation
