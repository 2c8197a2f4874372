import TouchHLE.Spec.PageSet
import TouchHLE.Theorems.Mem.VMRun

/-! The allocator of pages refines the page set. That a search through single chunks finds every run of unused pages rests on
    the unused chunks being coalesced. -/

namespace TouchHLE.Mem
open Lib Spec PageSet
variable {s : VMAllocator}

namespace VMAllocator

structure Shows (s : VMAllocator) (S : PageSet) : Prop where
  used : ∀ p, p ∈ S.used ↔ s.usedChunks.Has (p * pageSize)
  unused : ∀ p, p ∈ S.unused ↔ s.unusedChunks.chunks.Has (p * pageSize)

def request : VMCall → Request
  | .allocate (some address) size =>
    .allocateAt (pageDown address.toNat / pageSize) (pageUp size.toNat / pageSize)
  | .allocate none size => .allocateAny (pageUp size.toNat / pageSize)
  | .deallocate address size => .release (pageDown address.toNat / pageSize) (pageUp size.toNat / pageSize)

def answered : VMResult → Option (Set Nat)
  | .allocated (.ok chunk) => some (run (chunk.base / pageSize) (chunk.size.get / pageSize))
  | .allocated (.error _) => none
  | .freed chunk => some (run (chunk.base / pageSize) (chunk.size.get / pageSize))

section Answers
variable {A : Arena} {t : VMAllocator} {S : PageSet} {c r : Chunk} {p n : Nat}

end Answers

def Answers (A : Arena) (s : VMAllocator) (S : PageSet) (c : VMCall) : Prop :=
  ∃ r t T, s.call c = .ok (r, t) ∧ Inv A t ∧ Shows t T ∧ S.Answer (request c) (answered r) T

section Calls
variable {A : Arena} {S : PageSet} {address size : UInt32}

end Calls

end VMAllocator
end TouchHLE.Mem
