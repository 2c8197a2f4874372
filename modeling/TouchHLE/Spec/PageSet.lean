import Mathlib

/-! What an allocator of pages is for: every page is used, unused or outside, runs of consecutive unused
    pages can be claimed, and any run can be released. -/

namespace TouchHLE.Spec

@[ext] structure PageSet where
  used : Set Nat
  unused : Set Nat
  disjoint : Disjoint used unused

namespace PageSet

def run (p n : Nat) : Set Nat := .Ico p (p + n)

def take (S : PageSet) (r : Set Nat) : PageSet where
  used := S.used ∪ r
  unused := S.unused \ r
  disjoint := by
    rw [Set.disjoint_union_left]
    exact ⟨S.disjoint.mono_right sdiff_le, disjoint_sdiff_self_right⟩

def release (S : PageSet) (r : Set Nat) : PageSet where
  used := S.used \ r
  unused := S.unused ∪ r
  disjoint := by
    rw [Set.disjoint_union_right]
    exact ⟨S.disjoint.mono_left sdiff_le, disjoint_sdiff_self_left⟩

inductive Request where
  | allocateAt (p n : Nat)
  | allocateAny (n : Nat)
  | release (p n : Nat)

/-- The answers to a request: the pages it claimed or released, or nothing if it is refused, and the status
    of all pages afterwards. A request at an address is refused exactly when one of its pages is not unused, a request
    anywhere exactly when there is no run of that many unused pages. -/
inductive Answer (S : PageSet) : Request → Option (Set Nat) → PageSet → Prop where
  | taken {p n : Nat} (h : run p n ⊆ S.unused) : Answer S (.allocateAt p n) (some (run p n)) (S.take (run p n))
  | occupied {p n : Nat} (h : ¬run p n ⊆ S.unused) : Answer S (.allocateAt p n) none S
  | found {p n : Nat} (h : run p n ⊆ S.unused) : Answer S (.allocateAny n) (some (run p n)) (S.take (run p n))
  | full {n : Nat} (h : ∀ p, ¬run p n ⊆ S.unused) : Answer S (.allocateAny n) none S
  | released {p n : Nat} : Answer S (.release p n) (some (run p n)) (S.release (run p n))

end PageSet
end TouchHLE.Spec
