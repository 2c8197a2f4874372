import TouchHLE.Lib.OrdMap
import TouchHLE.Lib.Outcome
import TouchHLE.Lib.Vec

/-! The guest memory allocators: `touchHLE/src/mem/allocator.rs`.

    Addresses (`VAddr`) and sizes (`GuestUSize`), `u32` in the source, are natural numbers; an operation that may leave the
    32-bit range is reduced by `wrap`, as in a release build. A failed assertion, an `unwrap` of nothing or an index out of
    bounds ends in a `Panic`. -/

namespace TouchHLE.Mem
open Lib

/-- 32-bit arithmetic without overflow checks. -/
def wrap (n : Nat) : Nat := n % 2 ^ 32

def pageSize : Nat := 4096

def minChunkSize : Nat := 16

def nextMultipleOf (n k : Nat) : Nat := if n % k = 0 then n else wrap (n + (k - n % k))

def truncPage (address : Nat) : Nat := address &&& (2 ^ 32 - pageSize)

inductive Panic where
  | zeroSize
  | notAdjacent
  | basePresent
  /-- `BTreeMap::range` from a start above its end -/
  | rangeStart
  | baseMissing
  | belowMinimum
  | requestBelowMinimum
  /-- an index of `chunks_by_log2_size` out of bounds -/
  | noBucket
  | notInBucket
  | bucketMismatch
  | mapMismatch
  | addressNotPageMultiple
  | sizeNotPageMultiple
  | heapSpace
  | heapMemory
  | vallocZero
  | unknownAllocation
  /-- `"Could not find large enough chunk to allocate … bytes"` -/
  | noLargeEnoughChunk
  /-- `assert!(alloc.base.is_multiple_of(PAGE_SIZE))` and its sibling for the size, in `Mem::valloc` -/
  | vallocNotPageMultiple
  /-- a slice of the guest memory out of range -/
  | sliceRange
  | unknownZone
  | zonePresent
  deriving DecidableEq, Repr

structure NonZeroU32 where
  get : Nat
  pos : 0 < get
  deriving DecidableEq

structure Chunk where
  base : Nat
  size : NonZeroU32
  deriving DecidableEq

namespace Chunk

def new? (base : Nat) (size : Nat) : Option Chunk :=
  if h : 0 < size then some ⟨base, size, h⟩ else none

def new (base : Nat) (size : Nat) : Except Panic Chunk :=
  match new? base size with
  | some c => .ok c
  | none => .error .zeroSize

def lastByte (self : Chunk) : Nat := wrap (self.base + (self.size.get - 1))

def contains (self : Chunk) (addr : Nat) : Bool := self.base ≤ addr && addr ≤ self.lastByte

def merge (self other : Chunk) : Except Panic Chunk :=
  if wrap (self.lastByte + 1) = other.base ∨ wrap (other.lastByte + 1) = self.base then
    new (min self.base other.base) (wrap (self.size.get + other.size.get))
  else .error .notAdjacent

def difference (self other : Chunk) : Option Chunk × Option Chunk :=
  if other.lastByte < self.base then (none, some self)
  else if other.base > self.lastByte then (some self, none)
  else
    -- A `checked_sub` of `None` and one of `Some(0)` both give no part: truncated subtraction joins them.
    (new? self.base (other.base - self.base), new? (wrap (other.lastByte + 1)) (self.lastByte - other.lastByte))

def trisectBy (self middle : Chunk) : Option (Option Chunk × Option Chunk) :=
  if !self.contains middle.base || !self.contains middle.lastByte then none
  else some (self.difference middle)

end Chunk

structure ChunkMap where
  chunks : OrdMap Nat NonZeroU32

namespace ChunkMap

def empty : ChunkMap := ⟨.empty⟩

def insert (self : ChunkMap) (chunk : Chunk) : Except Panic ChunkMap :=
  if (self.chunks.lookup chunk.base).isSome then .error .basePresent
  else .ok ⟨self.chunks.insert chunk.base chunk.size⟩

variable (self : ChunkMap)

def removeWithBase (base : Nat) : Option Chunk × ChunkMap :=
  ((self.chunks.lookup base).map (.mk base), ⟨self.chunks.erase base⟩)

def removeWithEnd (end_ : Nat) : Except Panic (Option Chunk × ChunkMap) :=
  match self.chunks.lastWhere (· < end_) with
  | none => .ok (none, self)
  | some (base, size) =>
    let chunk : Chunk := ⟨base, size⟩
    if wrap (chunk.lastByte + 1) ≠ end_ then .ok (none, self)
    else
      match self.removeWithBase chunk.base with
      | (none, _) => .error .baseMissing
      | (some chunk, rest) => .ok (some chunk, rest)

def getSizeWithBase (base : Nat) : Option NonZeroU32 := self.chunks.lookup base

def overlappingChunks (chunk : Chunk) : Except Panic (List Chunk) :=
  let start :=
    match self.chunks.lastWhere (· ≤ chunk.base) with
    | some (base, size) => if chunk.base < wrap (base + size.get) then base else chunk.base
    | none => chunk.base
  if start > chunk.lastByte then .error .rangeStart
  else .ok ((self.chunks.range start chunk.lastByte).map fun e => ⟨e.1, e.2⟩)

def insert? : Option Chunk → Except Panic ChunkMap
  | none => .ok self
  | some chunk => self.insert chunk

/-- One round of `remove_range`: the chunk at `base` is replaced by what `remove` leaves of it. -/
def removeFrom (remove : Chunk) (self : ChunkMap) (base : Nat) : Except Panic ChunkMap := do
  match self.removeWithBase base with
  | (none, _) => .error .baseMissing
  | (some chunk, rest) =>
    let (left, right) := chunk.difference remove
    let rest ← rest.insert? left
    rest.insert? right

def removeRange (remove : Chunk) : Except Panic ChunkMap := do
  let overlapping ← self.overlappingChunks remove
  (overlapping.map (·.base)).foldlM (removeFrom remove) self

def intoIter : List Chunk := self.chunks.entries.map fun e => ⟨e.1, e.2⟩

end ChunkMap

/-! ### Chunk maps with an index by size -/

structure SizeBucketedChunkMap where
  minChunkSize : Nat
  chunks : ChunkMap
  chunksByLog2Size : List (List Chunk)

namespace SizeBucketedChunkMap

def new (minChunkSize : Nat) : SizeBucketedChunkMap where
  minChunkSize
  chunks := .empty
  chunksByLog2Size := .replicate (.log2 (2 ^ 32 - 1) - .log2 minChunkSize + 1) []

variable (self : SizeBucketedChunkMap) (size : Nat)

def bucketFor : Nat := .log2 size - .log2 self.minChunkSize

def insert (self : SizeBucketedChunkMap) (chunk : Chunk) : Except Panic SizeBucketedChunkMap := do
  if chunk.size.get < self.minChunkSize then .error .belowMinimum
  else
    let chunks ← self.chunks.insert chunk
    let i := self.bucketFor chunk.size.get
    match self.chunksByLog2Size[i]? with
    | none => .error .noBucket
    | some bucket => .ok { self with chunks, chunksByLog2Size := self.chunksByLog2Size.set i (bucket ++ [chunk]) }

def removeFromBucket (chunk : Chunk) : Except Panic SizeBucketedChunkMap :=
  let i := self.bucketFor chunk.size.get
  match self.chunksByLog2Size[i]? with
  | none => .error .noBucket
  | some bucket =>
    match Vec.rposition (fun chunk2 => chunk.base = chunk2.base) bucket with
    | none => .error .notInBucket
    | some idx =>
      if bucket[idx]? = some chunk then
        .ok { self with chunksByLog2Size := self.chunksByLog2Size.set i (Vec.swapRemove bucket idx) }
      else .error .bucketMismatch

/-- The common end of both removals: a chunk taken out of the map is taken out of its bucket. -/
def removed : Option Chunk × ChunkMap → Except Panic (Option Chunk × SizeBucketedChunkMap)
  | (none, _) => .ok (none, self)
  | (some chunk, chunks) => do
    let self ← { self with chunks }.removeFromBucket chunk
    .ok (some chunk, self)

def removeWithBase (self : SizeBucketedChunkMap) (base : Nat) : Except Panic (Option Chunk × SizeBucketedChunkMap) :=
  self.removed (self.chunks.removeWithBase base)

def removeWithEnd (self : SizeBucketedChunkMap) (end_ : Nat) : Except Panic (Option Chunk × SizeBucketedChunkMap) := do
  let r ← self.chunks.removeWithEnd end_
  self.removed r

def insert? : Option Chunk → Except Panic SizeBucketedChunkMap
  | none => .ok self
  | some chunk => self.insert chunk

def removeFrom (remove : Chunk) (self : SizeBucketedChunkMap) (base : Nat) : Except Panic SizeBucketedChunkMap := do
  match ← self.removeWithBase base with
  | (none, _) => .error .baseMissing
  | (some chunk, rest) =>
    let (left, right) := chunk.difference remove
    let rest ← rest.insert? left
    rest.insert? right

def removeRange (remove : Chunk) : Except Panic SizeBucketedChunkMap := do
  let overlapping ← self.chunks.overlappingChunks remove
  (overlapping.map (·.base)).foldlM (removeFrom remove) self

/-- The search of `allocate_in_bucket`: the smallest chunk of at least `size` bytes, with its index, from the end of the
    bucket; an exact fit ends it. -/
def bestChunk (size : Nat) : List (Chunk × Nat) → Option (Nat × Nat) → Option (Nat × Nat)
  | [], best => best
  | (chunk, idx) :: rest, best =>
    if chunk.size.get ≥ size ∧ best.all (·.2 > chunk.size.get) then
      if chunk.size.get = size then some (idx, chunk.size.get)
      else bestChunk size rest (some (idx, chunk.size.get))
    else bestChunk size rest best

def allocateInBucket (bucket : Nat) : Except Panic (Option Chunk × SizeBucketedChunkMap) := do
  match self.chunksByLog2Size[bucket]? with
  | none => .error .noBucket
  | some chunks =>
    match bestChunk size chunks.zipIdx.reverse none with
    | none => .ok (none, self)
    | some (idx, _) =>
      match chunks[idx]? with
      | none => .error .noBucket
      | some existing =>
        let buckets := self.chunksByLog2Size.set bucket (Vec.swapRemove chunks idx)
        let (existing2, rest) := self.chunks.removeWithBase existing.base
        if some existing ≠ existing2 then .error .mapMismatch
        else
          let self := { self with chunks := rest, chunksByLog2Size := buckets }
          if existing.size.get = size then .ok (some existing, self)
          else
            let alloc ← Chunk.new existing.base size
            let rump ← Chunk.new (wrap (existing.base + size)) (existing.size.get - size)
            let self ← self.insert rump
            .ok (some alloc, self)

def allocate : Except Panic (Option Chunk × SizeBucketedChunkMap) := do
  if size < self.minChunkSize then .error .requestBelowMinimum
  else
    -- Only the smallest bucket can hold an exact match.
    let bucket := self.bucketFor size
    match ← self.allocateInBucket size bucket with
    | (some alloc, self) => .ok (some alloc, self)
    | (none, self) =>
      match (self.chunksByLog2Size.drop (bucket + 1)).findIdx? (fun bucket => !bucket.isEmpty) with
      | none => .ok (none, self)
      | some i => self.allocateInBucket size (i + bucket + 1)

def iter : List Chunk := self.chunksByLog2Size.flatten

end SizeBucketedChunkMap

inductive VMAllocError where
  | addressUnavailable
  | noSpace
  deriving DecidableEq, Repr

structure VMAllocator where
  usedChunks : ChunkMap
  unusedChunks : SizeBucketedChunkMap

namespace VMAllocator

def new (base : Nat) (size : Nat) : Except Panic VMAllocator := do
  let allocationSpace ← Chunk.new base size
  let unusedChunks ← (SizeBucketedChunkMap.new pageSize).insert allocationSpace
  .ok { usedChunks := .empty, unusedChunks }

def allocateAt (self : VMAllocator) (address : Nat) (size : Nat) :
    Except Panic (Except VMAllocError Chunk × VMAllocator) := do
  if address % pageSize ≠ 0 then .error .addressNotPageMultiple
  else if size % pageSize ≠ 0 ∨ size < pageSize then .error .sizeNotPageMultiple
  else
    let chunk ← Chunk.new address size
    match self.unusedChunks.iter.find? (·.contains address) with
    | none => .ok (.error .addressUnavailable, self)
    | some toTrisect =>
      match toTrisect.trisectBy chunk with
      | none => .ok (.error .noSpace, self)
      | some (before, after) =>
        let (_, unused) ← self.unusedChunks.removeWithBase toTrisect.base
        let unused ← unused.insert? before
        let unused ← unused.insert? after
        let used ← self.usedChunks.insert chunk
        .ok (.ok chunk, { usedChunks := used, unusedChunks := unused })

def allocateAny (self : VMAllocator) (size : Nat) : Except Panic (Except VMAllocError Chunk × VMAllocator) := do
  if size % pageSize ≠ 0 ∨ size < pageSize then .error .sizeNotPageMultiple
  else
    match ← self.unusedChunks.allocate size with
    | (none, unused) => .ok (.error .noSpace, { self with unusedChunks := unused })
    | (some alloc, unused) =>
      let used ← self.usedChunks.insert alloc
      .ok (.ok alloc, { usedChunks := used, unusedChunks := unused })

def allocate (self : VMAllocator) (address : Option Nat) (size : Nat) :
    Except Panic (Except VMAllocError Chunk × VMAllocator) :=
  let size := nextMultipleOf size pageSize
  match address with
  | some address => self.allocateAt (truncPage address) size
  | none => self.allocateAny size

def mergeWith (combined : Chunk) : Option Chunk → Except Panic Chunk
  | none => .ok combined
  | some adjacent => combined.merge adjacent

def deallocate (self : VMAllocator) (address : Nat) (size : Nat) : Except Panic (Chunk × VMAllocator) := do
  let size := nextMultipleOf size pageSize
  let address := truncPage address
  let freed ← Chunk.new address size
  let used ← self.usedChunks.removeRange freed
  let unused ← self.unusedChunks.removeRange freed
  let (leftAdjacent, unused) ← unused.removeWithBase (wrap (freed.lastByte + 1))
  let (rightAdjacent, unused) ← unused.removeWithEnd freed.base
  let combined ← mergeWith freed leftAdjacent
  let combined ← mergeWith combined rightAdjacent
  let unused ← unused.insert combined
  .ok (freed, { usedChunks := used, unusedChunks := unused })

end VMAllocator

/-- A heap: small allocations are carved out of its backing chunks, large ones are left to the allocator of pages. -/
structure HeapAllocator where
  usedChunks : ChunkMap
  unusedChunks : SizeBucketedChunkMap
  externalChunks : ChunkMap
  backingChunks : List Chunk

namespace HeapAllocator

def heapChunkSize : Nat := 2 * 1024 * 1024

def heapAllocationThreshold : Nat := 15 * 1024 - 1

def new (vm : VMAllocator) (size : Nat) : Except Panic (HeapAllocator × VMAllocator) := do
  let unusedChunks := .new Mem.minChunkSize
  if size > 0 then
    match ← vm.allocate none size with
    | (.error _, _) => .error .heapSpace
    | (.ok baseChunk, vm) =>
      let unusedChunks ← unusedChunks.insert baseChunk
      .ok ({ usedChunks := .empty, unusedChunks, externalChunks := .empty, backingChunks := [baseChunk] }, vm)
  else
    .ok ({ usedChunks := .empty, unusedChunks, externalChunks := .empty, backingChunks := [] }, vm)

def align (size align : Nat) : Nat :=
  if size % align ≠ 0 then wrap (wrap (size + align) - size % align) else size

def allocSize (size : Nat) : Nat := align (max size Mem.minChunkSize) Mem.minChunkSize

variable (self : HeapAllocator) (vm : VMAllocator)

def grow : Except Panic (HeapAllocator × VMAllocator) := do
  match ← vm.allocate none heapChunkSize with
  | (.error _, _) => .error .heapMemory
  | (.ok chunk, vm) =>
    let unusedChunks ← self.unusedChunks.insert chunk
    .ok ({ self with unusedChunks, backingChunks := self.backingChunks ++ [chunk] }, vm)

def allocExternal (size : Nat) : Except Panic (Option Chunk × HeapAllocator × VMAllocator) := do
  match ← vm.allocate none size with
  | (.error _, vm) => .ok (none, self, vm)
  | (.ok alloc, vm) =>
    let externalChunks ← self.externalChunks.insert alloc
    .ok (some alloc, { self with externalChunks }, vm)

def allocUnused (size : Nat) : Except Panic (Option Chunk × HeapAllocator) := do
  match ← self.unusedChunks.allocate size with
  | (none, unusedChunks) => .ok (none, { self with unusedChunks })
  | (some alloc, unusedChunks) =>
    let usedChunks ← self.usedChunks.insert alloc
    .ok (some alloc, { self with unusedChunks, usedChunks })

def alloc (self : HeapAllocator) (vm : VMAllocator) (size : Nat) :
    Except Panic (Option Chunk × HeapAllocator × VMAllocator) := do
  let size := allocSize size
  if size > heapAllocationThreshold then self.allocExternal vm size
  else
    match ← self.allocUnused size with
    | (some alloc, self) => .ok (some alloc, self, vm)
    | (none, self) =>
      let (self, vm) ← self.grow vm
      let (alloc, self) ← self.allocUnused size
      .ok (alloc, self, vm)

def valloc (size : Nat) : Except Panic (Option Chunk × HeapAllocator × VMAllocator) :=
  if size = 0 then .error .vallocZero
  else self.allocExternal vm (nextMultipleOf size pageSize)

def findAllocatedSize (base : Nat) : Except Panic Nat :=
  match self.externalChunks.getSizeWithBase base with
  | some size => .ok size.get
  | none =>
    match self.usedChunks.getSizeWithBase base with
    | some size => .ok size.get
    | none => .error .unknownAllocation

/-- A neighbour of `freed` among the unused chunks, taken out: the one after it or else the one before it. -/
def takeAdjacent (unused : SizeBucketedChunkMap) (freed : Chunk) : Except Panic (Option Chunk × SizeBucketedChunkMap) := do
  match ← unused.removeWithBase (wrap (freed.lastByte + 1)) with
  | (some adjacent, unused) => .ok (some adjacent, unused)
  | (none, unused) => unused.removeWithEnd freed.base

def free (base : Nat) : Except Panic (Nat × HeapAllocator × VMAllocator) := do
  match self.externalChunks.removeWithBase base with
  | (some freed, externalChunks) =>
    let (_, vm) ← vm.deallocate freed.base freed.size.get
    .ok (freed.size.get, { self with externalChunks }, vm)
  | (none, _) =>
    match self.usedChunks.removeWithBase base with
    | (none, _) => .ok (0, self, vm)
    | (some freed, usedChunks) =>
      match ← takeAdjacent self.unusedChunks freed with
      | (some adjacent, unused) =>
        let combined ← adjacent.merge freed
        let unusedChunks ← unused.insert combined
        .ok (freed.size.get, { self with usedChunks, unusedChunks }, vm)
      | (none, unused) =>
        let unusedChunks ← unused.insert freed
        .ok (freed.size.get, { self with usedChunks, unusedChunks }, vm)

def intoVmChunks : List Chunk := self.externalChunks.intoIter ++ self.backingChunks

end HeapAllocator
end TouchHLE.Mem
