import Mathlib.Logic.Function.Basic

/-! Named semaphores as POSIX describes them: names and handles refer to semaphores, and each semaphore has a value.
    What a call may return and leave behind is a relation, since the system chooses the handles and the semaphores. -/

namespace TouchHLE.Spec
open Function
variable {ν κ η : Type}

/-- The names `ν`, the semaphores `κ` and the handles `η` that are open on them. -/
structure NamedSemaphores (ν κ η : Type) where
  names : ν → Option κ
  handles : η → Option κ
  value : κ → Int

namespace NamedSemaphores
variable [DecidableEq ν] [DecidableEq κ] [DecidableEq η] (A : NamedSemaphores ν κ η) (name : ν)

def Unused (k : κ) : Prop := (∀ n, A.names n ≠ some k) ∧ ∀ p, A.handles p ≠ some k

def Attaches (k : κ) (p : η) (B : NamedSemaphores ν κ η) : Prop :=
  (A.handles p = none ∨ A.handles p = some k) ∧ B = { A with handles := update A.handles p (some k) }

def Creates (value : Int) (p : η) (B : NamedSemaphores ν κ η) : Prop := A.handles p = none ∧ ∃ k, A.Unused k ∧
    B = ⟨update A.names name (some k), update A.handles p (some k), update A.value k value⟩

/-- `sem_open`, where no handle is a failure. `O_EXCL` without `O_CREAT` has no meaning. -/
def Opens (create excl : Bool) (value : Int) (r : Option η)
    (B : NamedSemaphores ν κ η) : Prop :=
  match A.names name with
  | some k => if excl then create = true → r = none ∧ B = A else ∃ p, r = some p ∧ A.Attaches k p B
  | none => if create then ∃ p, r = some p ∧ A.Creates name value p B else r = none ∧ B = A

def Unlinks (B : NamedSemaphores ν κ η) : Prop := B = { A with names := update A.names name none }

def Closes (p : η) (B : NamedSemaphores ν κ η) : Prop := B = { A with handles := update A.handles p none }

def Adds (p : η) (d : Int) (B : NamedSemaphores ν κ η) : Prop :=
  ∃ k, A.handles p = some k ∧ B = { A with value := update A.value k (A.value k + d) }

def Takes (p : η) (taken : Bool) (B : NamedSemaphores ν κ η) : Prop :=
  ∃ k, A.handles p = some k ∧ taken = decide (0 < A.value k) ∧ if taken then A.Adds p (-1) B else B = A

end NamedSemaphores

end TouchHLE.Spec
