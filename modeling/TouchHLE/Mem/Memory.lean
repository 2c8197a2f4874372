import TouchHLE.Mem.Allocator

/-! The guest memory: `touchHLE/src/mem.rs`.

    The 4 GiB of bytes are a function of the address; an access is checked against the end of the array. A function that
    takes `Option<&mut HeapAllocator>` takes and returns an optional heap: without one it works on the default heap. The
    logging of accesses to the null segment is not modelled. -/

namespace TouchHLE
open Mem

structure Mem where
  bytes : Nat → UInt8
  heapAllocator : Option HeapAllocator
  vmAllocator : VMAllocator
  /-- Memory is zeroed out on free (`true`) or on alloc (`false`). -/
  zeroMemoryOnFree : Bool

namespace Mem

def mainThreadStackSize : Nat := 1024 * 1024

def mainThreadStackLowEnd : Nat := 2 ^ 32 - mainThreadStackSize

def new : Except Panic Mem := do
  let vmAllocator ← VMAllocator.new 0 mainThreadStackLowEnd
  .ok { bytes := fun _ => 0, heapAllocator := none, vmAllocator, zeroMemoryOnFree := true }

variable (self : Mem) (heap : Option HeapAllocator)

def fillZero (ptr count : Nat) : Except Panic Mem :=
  if ptr + count ≤ 2 ^ 32 then
    .ok { self with bytes := fun x => if ptr ≤ x ∧ x < ptr + count then 0 else self.bytes x }
  else .error .sliceRange

def overwrite (bytes : Nat → UInt8) (ptr : Nat) (data : List UInt8) : Nat → UInt8 :=
  fun x => if ptr ≤ x ∧ x < ptr + data.length then data.getD (x - ptr) 0 else bytes x

def copyFromSlice (ptr count : Nat) (data : List UInt8) : Except Panic Mem :=
  if ptr + count ≤ 2 ^ 32 ∧ data.length ≤ count then .ok { self with bytes := overwrite self.bytes ptr data }
  else .error .sliceRange

def memmove (dest src size : Nat) : Except Panic Mem :=
  if src + size ≤ 2 ^ 32 ∧ dest + size ≤ 2 ^ 32 then
    .ok { self with bytes := fun x => if dest ≤ x ∧ x < dest + size then self.bytes (src + (x - dest)) else self.bytes x }
  else .error .sliceRange

/-- The allocator of pages and the given heap, or the default heap, which is created when it is first needed. -/
def allocatorsMut : Except Panic (VMAllocator × HeapAllocator) :=
  match heap, self.heapAllocator with
  | some heap, _ => .ok (self.vmAllocator, heap)
  | none, some heap => .ok (self.vmAllocator, heap)
  | none, none => do
    let (heap, vm) ← HeapAllocator.new self.vmAllocator HeapAllocator.heapChunkSize
    .ok (vm, heap)

/-- The end of the mutable borrow: the changed heap goes back to where it came from. -/
def putBack (given : Option HeapAllocator) (vm : VMAllocator) (heap : HeapAllocator) : Option HeapAllocator × Mem :=
  match given with
  | some _ => (some heap, { self with vmAllocator := vm })
  | none => (none, { self with vmAllocator := vm, heapAllocator := some heap })

def allocInHeap (size : Nat) : Except Panic (Nat × Option HeapAllocator × Mem) := do
  let (vm, h) ← self.allocatorsMut heap
  match ← h.alloc vm size with
  | (none, _, _) => .error .noLargeEnoughChunk
  | (some alloc, h, vm) =>
    let (heap, self) := self.putBack heap vm h
    if !self.zeroMemoryOnFree && alloc.size.get ≤ HeapAllocator.heapAllocationThreshold then
      let self ← self.fillZero alloc.base size
      .ok (alloc.base, heap, self)
    else .ok (alloc.base, heap, self)

def vmAlloc (address : Option Nat) (size : Nat) : Except Panic (Except VMAllocError Nat × Mem) := do
  match ← self.vmAllocator.allocate address size with
  | (.error e, vm) => .ok (.error e, { self with vmAllocator := vm })
  | (.ok allocation, vm) =>
    let self ← { self with vmAllocator := vm }.fillZero allocation.base allocation.size.get
    .ok (.ok allocation.base, self)

def calloc (size : Nat) : Except Panic (Nat × Mem) := do
  let (ptr, _, self) ← self.allocInHeap none size
  let self ← self.fillZero ptr size
  .ok (ptr, self)

def valloc (self : Mem) (size : Nat) : Except Panic (Nat × Mem) := do
  let (vm, h) ← self.allocatorsMut none
  match ← h.valloc vm size with
  | (none, _, _) => .error .noLargeEnoughChunk
  | (some alloc, h, vm) =>
    let (_, self) := self.putBack none vm h
    if alloc.base % pageSize ≠ 0 ∨ alloc.size.get % pageSize ≠ 0 then .error .vallocNotPageMultiple
    else
      let self ← self.fillZero alloc.base alloc.size.get
      .ok (alloc.base, self)

def mallocSizeInHeap (ptr : Nat) : Except Panic (Nat × Option HeapAllocator × Mem) := do
  let (vm, h) ← self.allocatorsMut heap
  let size ← h.findAllocatedSize ptr
  let (heap, self) := self.putBack heap vm h
  .ok (size, heap, self)

def freeInHeap (ptr : Nat) : Except Panic (Nat × Option HeapAllocator × Mem) := do
  let (vm, h) ← self.allocatorsMut heap
  let (size, h, vm) ← h.free vm ptr
  let (heap, self) := self.putBack heap vm h
  if size > HeapAllocator.heapAllocationThreshold then
    let self ← self.fillZero ptr size
    .ok (size, heap, self)
  else if self.zeroMemoryOnFree then
    let self ← self.fillZero ptr size
    .ok (size, heap, self)
  else .ok (size, heap, self)

def reallocInHeap (oldPtr size : Nat) : Except Panic (Nat × Option HeapAllocator × Mem) := do
  if oldPtr = 0 then self.allocInHeap heap size
  else
    let (oldSize, heap, self) ← self.mallocSizeInHeap heap oldPtr
    if oldSize ≥ size then .ok (oldPtr, heap, self)
    else
      let (newPtr, heap, self) ← self.allocInHeap heap size
      let self ← self.memmove newPtr oldPtr oldSize
      let (_, heap, self) ← self.freeInHeap heap oldPtr
      .ok (newPtr, heap, self)

def vmFree (ptr size : Nat) : Except Panic Mem := do
  let (freed, vm) ← self.vmAllocator.deallocate ptr size
  { self with vmAllocator := vm }.fillZero freed.base freed.size.get

def createHeap (size : Nat) : Except Panic (HeapAllocator × Mem) := do
  let (heap, vm) ← HeapAllocator.new self.vmAllocator size
  .ok (heap, { self with vmAllocator := vm })

def destroyHeap (heap : HeapAllocator) : Except Panic Mem :=
  heap.intoVmChunks.foldlM (fun self chunk => self.vmFree chunk.base chunk.size.get) self

end Mem
end TouchHLE
