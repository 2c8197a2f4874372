import TouchHLE.Lib.Outcome

/-! `touchHLE/src/audio/ima4.rs`: the decoder of IMA4 packets, with the widths of its integers and the bounds of its tables,
    follows the recurrence of IMA ADPCM on integers. -/

namespace TouchHLE.Audio.Ima4
open Lib

def INDEX_TABLE : List Int := [-1, -1, -1, -1, 2, 4, 6, 8, -1, -1, -1, -1, 2, 4, 6, 8]

def STEP_SIZE_TABLE : List Nat := [
  7, 8, 9, 10, 11, 12, 13, 14, 16, 17, 19, 21, 23, 25, 28, 31, 34, 37, 41, 45, 50, 55, 60, 66,
  73, 80, 88, 97, 107, 118, 130, 143, 157, 173, 190, 209, 230, 253, 279, 307, 337, 371, 408, 449,
  494, 544, 598, 658, 724, 796, 876, 963, 1060, 1166, 1282, 1411, 1552, 1707, 1878, 2066, 2272,
  2499, 2749, 3024, 3327, 3660, 4026, 4428, 4871, 5358, 5894, 6484, 7132, 7845, 8630, 9493,
  10442, 11487, 12635, 13899, 15289, 16818, 18500, 20350, 22385, 24623, 27086, 29794, 32767]

inductive Panic where
  | index
  | overflow

def entry {α : Type} (table : List α) (i : Nat) : Except Panic α :=
  if h : i < table.length then .ok table[i] else .error .index

/-- `if c { a += b }` on `u16` -/
def addIf (c : Prop) [Decidable c] (b a : Nat) : Except Panic Nat :=
  if c then if a + b < 2 ^ 16 then .ok (a + b) else .error .overflow else .ok a

structure Decoder where
  index : Nat
  predictedSample : Int
  stepSize : Nat
  outPacket : List Int

def difference (stepSize nibble : Nat) : Except Panic Nat := do
  let difference ← addIf (nibble &&& 4 ≠ 0) stepSize 0
  let difference ← addIf (nibble &&& 2 ≠ 0) (stepSize >>> 1) difference
  let difference ← addIf (nibble &&& 1 ≠ 0) (stepSize >>> 2) difference
  addIf True (stepSize >>> 3) difference

def nibble (byte : UInt8) (nibbleIdx : Nat) : Nat := byte.toNat >>> (nibbleIdx * 4) &&& 0xf

def rounds (bytes : List UInt8) : List (Nat × Nat) :=
  bytes.zipIdx.flatMap fun b => [0, 1].map fun k => (nibble b.1 k, b.2 * 2 + k)

variable (packet : Vector UInt8 34)

def header : Nat := packet[0].toNat * 256 + packet[1].toNat

def start : Except Panic Decoder := do
  let index := min (header packet &&& 0x7f) (STEP_SIZE_TABLE.length - 1)
  let predictedSample := ((header packet >>> 7 <<< 7 : Nat) : Int).bmod 65536
  let stepSize ← entry STEP_SIZE_TABLE index
  .ok ⟨index, predictedSample, stepSize, List.replicate 64 0⟩

def clamp (lo hi x : Int) : Int := max lo (min hi x)

structure Reference where
  index : Int
  sample : Int

def size (stepSize nibble : Nat) : Nat :=
  (if nibble &&& 4 ≠ 0 then stepSize else 0) + (if nibble &&& 2 ≠ 0 then stepSize >>> 1 else 0) +
    (if nibble &&& 1 ≠ 0 then stepSize >>> 2 else 0) + stepSize >>> 3

def Reference.next (r : Reference) (nibble : Nat) : Reference :=
  let size : Int := size (STEP_SIZE_TABLE.getD r.index.toNat 0) nibble
  { index := clamp 0 88 (r.index + INDEX_TABLE.getD nibble 0)
    sample := clamp (-32768) 32767 (if nibble &&& 8 ≠ 0 then r.sample - size else r.sample + size) }

def Reference.samples (r : Reference) : List Nat → List Int
  | [] => []
  | nibble :: rest => (r.next nibble).sample :: (r.next nibble).samples rest

structure Decoder.Follows (d : Decoder) (r : Reference) (done : List Int) : Prop where
  index : (d.index : Int) = r.index
  index_le : d.index ≤ 88
  stepSize : STEP_SIZE_TABLE[d.index]? = some d.stepSize
  sample : d.predictedSample = r.sample
  sample_mem : -32768 ≤ d.predictedSample ∧ d.predictedSample ≤ 32767
  out : d.outPacket = done ++ List.replicate (64 - done.length) 0

section
variable {d : Decoder} {r : Reference} {done : List Int}

end

@[simp] theorem Reference.length_samples (r : Reference) (ns : List Nat) : (r.samples ns).length = ns.length := by
  induction ns generalizing r with
  | nil => rfl
  | cons n ns ih => simp [samples, ih]

end TouchHLE.Audio.Ima4
