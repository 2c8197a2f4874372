import Mathlib.Data.List.Basic

/-! Dictionaries as histories: the value of a key is what was last inserted under the same key, unless it has been removed
    since. -/

namespace TouchHLE.Spec.Dictionary
variable {κ ν : Type}

inductive Event (κ ν : Type) where
  | insert (key : κ) (value : ν)
  | remove (key : κ)
deriving DecidableEq

def Event.key : Event κ ν → κ
  | .insert key _ | .remove key => key

def Event.value : Event κ ν → Option ν
  | .insert _ value => some value
  | .remove _ => none

def latest (same : κ → κ → Bool) (log : List (Event κ ν)) (key : κ) : Option ν :=
  (log.reverse.find? fun e => same e.key key).bind (·.value)

section
variable (same : κ → κ → Bool) (log : List (Event κ ν))

theorem latest_append (e : Event κ ν) (key : κ) :
    latest same (log ++ [e]) key = if same e.key key then e.value else latest same log key := by
  rw [latest, List.reverse_append, List.reverse_singleton, List.singleton_append, List.find?_cons]
  cases same e.key key with
  | true => rfl
  | false => rfl

theorem latest_insert (k x : κ) (v : ν) :
    latest same (log ++ [.insert k v]) x = if same k x then some v else latest same log x :=
  latest_append same log (.insert k v) x

theorem latest_remove (k x : κ) : latest same (log ++ [.remove k]) x = if same k x then none else latest same log x :=
  latest_append same log (.remove k) x

end

end TouchHLE.Spec.Dictionary
