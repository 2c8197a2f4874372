import TouchHLE.Lib.Vec

/-! What a stream with pushback is for: a sequence is read from some position on, and elements that are put back are
    delivered before the rest of it, the last one first. -/

namespace TouchHLE.Spec
open Lib List

structure Stream (α : Type) where
  contents : List α
  next : Nat
  pushed : List α

namespace Stream
variable {α : Type} (s : Stream α)

def ahead : List α := s.pushed ++ s.contents.drop s.next

def position : Int := s.next - s.pushed.length

def read (n : Nat) : List α × Stream α := (s.ahead.take n,
    { s with next := s.next + ((s.ahead.take n).length - s.pushed.length), pushed := s.pushed.drop n })

def readLine (stop : α → Bool) (n : Nat) : List α × Stream α := s.read (Vec.upTo stop (s.ahead.take n)).length

def unread (a : α) : Stream α := { s with pushed := a :: s.pushed }

/-- What was put back is forgotten. A position outside of the range of positions is refused. -/
def seek (limit : Nat) (target : Int) : Bool × Stream α :=
  if 0 ≤ target ∧ target ≤ limit then (true, { s with next := target.toNat, pushed := [] }) else (false, s)

theorem ahead_read (n : Nat) : (s.read n).2.ahead = s.ahead.drop n := by
  simp only [read, ahead, drop_append, length_take, length_append, length_drop, drop_drop, append_cancel_left_eq]
  -- Beyond the end, both counts drop everything.
  by_cases hn : n - s.pushed.length ≤ s.contents.length - s.next
  · congr 1
    omega
  · rw [drop_eq_nil_of_le (by omega), drop_eq_nil_of_le (by omega)]

end Stream
end TouchHLE.Spec
