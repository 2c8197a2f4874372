import TouchHLE.Foundation.PropertyList

/-! Values of property lists: all values inside one, when two are equal, and which of them objects can carry. -/

namespace TouchHLE.Foundation.PropertyList.Value
open List

/-- Induction over values, where a container comes after what it contains. -/
@[elab_as_elim] theorem containment {P : Value → Prop} (array : ∀ items, (∀ x ∈ items, P x) → P (.array items))
    (dictionary : ∀ entries, (∀ e ∈ entries, P e.2) → P (.dictionary entries)) (boolean : ∀ b, P (.boolean b))
    (data : ∀ bytes, P (.data bytes)) (date : ∀ time, P (.date time)) (integer : ∀ n, P (.integer n))
    (real : ∀ bits, P (.real bits)) (string : ∀ text, P (.string text)) (uid : ∀ n, P (.uid n)) (v : Value) : P v := by
  refine @Value.rec P (fun items => ∀ x ∈ items, P x) (fun entries => ∀ e ∈ entries, P e.2) (fun e => P e.2) array
    dictionary boolean data date integer real string uid ?_ ?_ ?_ ?_ ?_ v
  · exact fun x hx => absurd hx not_mem_nil
  · intro head tail hhd htl x hx
    rcases mem_cons.mp hx with rfl | hx
    · exact hhd
    · exact htl x hx
  · exact fun e he => absurd he not_mem_nil
  · intro head tail hhd htl e he
    rcases mem_cons.mp he with rfl | he
    · exact hhd
    · exact htl e he
  · exact fun _ _ h => h

mutual

def nodes : Value → List Value
  | .array items => .array items :: nodesOfItems items
  | .dictionary entries => .dictionary entries :: nodesOfEntries entries
  | .boolean b => [.boolean b]
  | .data bytes => [.data bytes]
  | .date time => [.date time]
  | .integer n => [.integer n]
  | .real bits => [.real bits]
  | .string text => [.string text]
  | .uid n => [.uid n]

def nodesOfItems : List Value → List Value
  | [] => []
  | v :: items => v.nodes ++ nodesOfItems items

def nodesOfEntries : List (Text × Value) → List Value
  | [] => []
  | (_, v) :: entries => v.nodes ++ nodesOfEntries entries

end

theorem nodesOfItems_eq (items : List Value) : nodesOfItems items = items.flatMap nodes := by
  induction items with
  | nil => rfl
  | cons v items ih => rw [nodesOfItems, ih, flatMap_cons]

theorem nodesOfEntries_eq (entries : List (Text × Value)) : nodesOfEntries entries = entries.flatMap fun e => e.2.nodes := by
  induction entries with
  | nil => rfl
  | cons e entries ih =>
    rw [nodesOfEntries, ih, flatMap_cons]

theorem nodes_array (items : List Value) : (Value.array items).nodes = .array items :: items.flatMap nodes := by
  rw [nodes, nodesOfItems_eq]

theorem nodes_dictionary (entries : List (Text × Value)) :
    (Value.dictionary entries).nodes = .dictionary entries :: entries.flatMap fun e => e.2.nodes := by
  rw [nodes, nodesOfEntries_eq]

def Everywhere (P : Value → Prop) (v : Value) : Prop := ∀ x ∈ v.nodes, P x

instance (P : Value → Prop) [DecidablePred P] (v : Value) : Decidable (v.Everywhere P) :=
  inferInstanceAs (Decidable (∀ x ∈ _, _))

theorem everywhere_array {P : Value → Prop} {items : List Value} :
    (Value.array items).Everywhere P ↔ P (.array items) ∧ ∀ x ∈ items, x.Everywhere P := by
  simp only [Everywhere, nodes_array, forall_mem_cons, mem_flatMap]
  refine and_congr_right fun _ => ⟨fun h x hx y hy => h y ⟨x, hx, hy⟩, ?_⟩
  rintro h y ⟨x, hx, hy⟩
  exact h x hx y hy

theorem everywhere_dictionary {P : Value → Prop} {entries : List (Text × Value)} :
    (Value.dictionary entries).Everywhere P ↔ P (.dictionary entries) ∧ ∀ e ∈ entries, e.2.Everywhere P := by
  simp only [Everywhere, nodes_dictionary, forall_mem_cons, mem_flatMap]
  refine and_congr_right fun _ => ⟨fun h e he y hy => h y ⟨e, he, hy⟩, ?_⟩
  rintro h y ⟨e, he, hy⟩
  exact h e he y hy

/-- `PartialEq`: dictionaries are compared by their keys, in whatever order these come. -/
inductive Equal : Value → Value → Prop where
  | array {a b : List Value} : List.Forall₂ Equal a b → Equal (.array a) (.array b)
  | dictionary {a b : List (Text × Value)} : a.length = b.length → (∀ e ∈ a, (b.lookup e.1).isSome) →
      (∀ e ∈ a, ∀ w, b.lookup e.1 = some w → Equal e.2 w) → Equal (.dictionary a) (.dictionary b)
  | boolean (b : Bool) : Equal (.boolean b) (.boolean b)
  | data (bytes : List UInt8) : Equal (.data bytes) (.data bytes)
  | date (time : Int) : Equal (.date time) (.date time)
  | integer (n : Integer) : Equal (.integer n) (.integer n)
  | real (bits : UInt64) : Equal (.real bits) (.real bits)
  | string (text : Text) : Equal (.string text) (.string text)
  | uid (n : UInt64) : Equal (.uid n) (.uid n)

/-- A dictionary, array, string, boolean, data or integer; the keys of a dictionary are distinct. -/
def IsPlain : Value → Prop
  | .dictionary entries => (entries.map (·.1)).Nodup
  | .date _ | .real _ | .uid _ => False
  | _ => True

def DataFits : Value → Prop
  | .data bytes => bytes.length < 2 ^ 32
  | _ => True

def IsSigned : Value → Prop
  | .integer n => n.value < 2 ^ 63
  | _ => True

end TouchHLE.Foundation.PropertyList.Value

namespace TouchHLE.Foundation

/-- A value of a property list: made of dictionaries with distinct keys, arrays, strings, booleans, data and integers. -/
structure PropertyList where
  value : PropertyList.Value
  plain : value.Everywhere PropertyList.Value.IsPlain

end TouchHLE.Foundation
