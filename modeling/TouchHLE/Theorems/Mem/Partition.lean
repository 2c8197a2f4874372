import TouchHLE.Theorems.Mem.Neighbours

/-! Used and unused chunks as a partition of a region of memory. An allocation moves a part of an unused chunk to the used
    ones (`Moved`), a deallocation moves a range back (`Returned`). -/

namespace TouchHLE.Mem
open Lib ChunkMap
variable {x : Nat}

/-- The used chunks `m` and the unused chunks `b` partition the region `R` at multiples of `k`, and the size index
    of the unused ones is right. -/
structure Partition (k : Nat) (R : Nat → Prop) (m : ChunkMap) (b : SizeBucketedChunkMap) : Prop where
  min : b.minChunkSize = k
  unused : b.Good
  used : m.Spaced k
  apart : ∀ c ∈ m, ∀ d ∈ b.chunks, c.Apart d
  cover : ∀ x, m.Has x ∨ b.chunks.Has x ↔ R x

structure Moved (k : Nat) (m : ChunkMap) (b : SizeBucketedChunkMap) (m' : ChunkMap) (b' : SizeBucketedChunkMap)
    (c a : Chunk) : Prop where
  mem : c ∈ b.chunks
  within : c.base ≤ a.base ∧ a.hi ≤ c.hi
  aligned : Aligned k a
  used : ∀ d, d ∈ m' ↔ d = a ∨ d ∈ m
  good : b'.Good
  min : b'.minChunkSize = k
  unused : ∀ d, d ∈ b'.chunks ↔ ∃ c ∈ b.chunks, d ∈ c.pieces a

structure Returned (k : Nat) (m : ChunkMap) (b : SizeBucketedChunkMap) (m' : ChunkMap) (b' : SizeBucketedChunkMap)
    (r : Chunk) : Prop where
  fits : r.hi ≤ 2 ^ 32
  spaced : m'.Spaced k
  used : ∀ d, d ∈ m' ↔ ∃ c ∈ m, d ∈ c.pieces r
  good : b'.Good
  min : b'.minChunkSize = k
  unused : ∀ x, b'.chunks.Has x ↔ b.chunks.Has x ∨ r.Has x

section
variable {k : Nat} {R : Nat → Prop} {m m' : ChunkMap} {b b' : SizeBucketedChunkMap} {c a r : Chunk}

namespace Partition

section
variable (h : Partition k R m b)
include h

theorem spaced : b.chunks.Spaced k := h.min ▸ h.unused.spaced

theorem not_has_both (hu : m.Has x) : ¬b.chunks.Has x := by
  rintro ⟨d, hd, hdx⟩
  obtain ⟨c, hc, hcx⟩ := hu
  exact Chunk.apart_iff.mp (h.apart c hc d hd) x hcx hdx

theorem of_used (hc : c ∈ m) (hx : c.Has x) : R x := (h.cover x).mp (.inl ⟨c, hc, hx⟩)

theorem of_unused (hc : c ∈ b.chunks) (hx : c.Has x) : R x := (h.cover x).mp (.inr ⟨c, hc, hx⟩)

theorem congr {R'} (hR : ∀ x, R x ↔ R' x) : Partition k R' m b :=
  ⟨h.min, h.unused, h.used, h.apart, fun x => (h.cover x).trans (hR x)⟩

end

theorem new (hk : 0 < k) (hlt : k < 2 ^ 32) : Partition k (fun _ => False) .empty (.new k) where
  min := rfl
  unused := ⟨SizeBucketedChunkMap.new_indexed hk hlt, .empty⟩
  used := .empty
  apart := fun c hc => absurd hc (not_mem_empty c)
  cover := fun x => by
    have hno : ¬empty.Has x := fun ⟨d, hd, _⟩ => not_mem_empty d hd
    simp only [iff_false, not_or]
    exact ⟨hno, hno⟩

theorem extend (h : Partition k R m b) (hc : Aligned k c) (hlt : c.size.get < 2 ^ 32) (hout : ∀ x, c.Has x → ¬R x) :
    ∃ b', b.insert c = .ok b' ∧ (∀ d, d ∈ b'.chunks ↔ d = c ∨ d ∈ b.chunks) ∧ Partition k (fun x => R x ∨ c.Has x) m b' := by
  have hap : ∀ d ∈ b.chunks, d.Apart c := fun d hd =>
    Chunk.apart_iff.mpr fun x hdx hcx => hout x hcx (h.of_unused hd hdx)
  obtain ⟨b', hins, hgd, hmin, hmem⟩ := h.unused.insert_ok (h.min ▸ hc) hlt hap
  refine ⟨b', hins, hmem, hmin.trans h.min, hgd, h.used, fun d hd e he => ?_, fun x => ?_⟩
  · rcases (hmem e).mp he with rfl | he
    · exact Chunk.apart_iff.mpr fun x hdx hex => hout x hex (h.of_used hd hdx)
    · exact h.apart d hd e he
  · have hhas : b'.chunks.Has x ↔ b.chunks.Has x ∨ c.Has x := by
      simp only [Has, hmem, or_and_right, exists_or, exists_eq_left]
      exact or_comm
    rw [hhas, ← or_assoc, h.cover]

end Partition

namespace Moved

theorem has_of_has (hm : Moved k m b m' b' c a) (hx : a.Has x) : b.chunks.Has x :=
  ⟨c, hm.mem, Nat.le_trans hm.within.1 hx.1, Nat.lt_of_lt_of_le hx.2 hm.within.2⟩

theorem has_used (hm : Moved k m b m' b' c a) : m'.Has x ↔ m.Has x ∨ a.Has x := by
  simp only [Has, hm.used, or_and_right, exists_or, exists_eq_left]
  exact or_comm

section
variable (h : Partition k R m b) (hm : Moved k m b m' b' c a)
include h hm

theorem has_unused : b'.chunks.Has x ↔ b.chunks.Has x ∧ ¬a.Has x := has_of_pieces h.spaced hm.aligned.fits hm.unused

theorem apart_used {d} (hd : d ∈ m) : d.Apart a :=
  Chunk.apart_iff.mpr fun _ hdx hax => h.not_has_both ⟨d, hd, hdx⟩ (hm.has_of_has hax)

theorem partition : Partition k R m' b' where
  min := hm.min
  unused := hm.good
  used := h.used.add hm.aligned (fun _ hd => hm.apart_used h hd) hm.used
  apart := fun d hd e he => by
    rw [Chunk.apart_iff]
    intro x hdx hex
    obtain ⟨huns, hnot⟩ := (hm.has_unused h).mp ⟨e, he, hex⟩
    rcases (hm.used d).mp hd with rfl | hd
    · exact hnot hdx
    · exact h.not_has_both ⟨d, hd, hdx⟩ huns
  cover := fun x => by
    rw [hm.has_used, hm.has_unused h, ← h.cover x]
    constructor
    · rintro ((hx | hx) | ⟨hx, -⟩)
      · exact .inl hx
      · exact .inr (hm.has_of_has hx)
      · exact .inr hx
    · rintro (hx | hx)
      · exact .inl (.inl hx)
      · by_cases hax : a.Has x
        · exact .inl (.inr hax)
        · exact .inr ⟨hx, hax⟩

end

end Moved

namespace Returned

theorem has_used (h : Partition k R m b) (hr : Returned k m b m' b' r) : m'.Has x ↔ m.Has x ∧ ¬r.Has x :=
  has_of_pieces h.used hr.fits hr.used

theorem partition (h : Partition k R m b) (hr : Returned k m b m' b' r)
    (hR : ∀ x, r.Has x → R x) : Partition k R m' b' where
  min := hr.min
  unused := hr.good
  used := hr.spaced
  apart := fun c hc d hd => by
    rw [Chunk.apart_iff]
    intro x hcx hdx
    obtain ⟨hin, hnot⟩ := (hr.has_used h).mp ⟨c, hc, hcx⟩
    rcases (hr.unused x).mp ⟨d, hd, hdx⟩ with hx | hx
    · exact h.not_has_both hin hx
    · exact hnot hx
  cover := fun x => by
    rw [hr.has_used h, hr.unused, ← h.cover x]
    constructor
    · rintro (⟨hx, -⟩ | hx | hx)
      · exact .inl hx
      · exact .inr hx
      · exact (h.cover x).mpr (hR x hx)
    · rintro (hx | hx)
      · by_cases hrx : r.Has x
        · exact .inr (.inr hrx)
        · exact .inl ⟨hx, hrx⟩
      · exact .inr (.inl hx)

end Returned

/-- The best-fit search either finds no chunk that is large enough, or moves its find to the used chunks. -/
theorem Partition.allocate_spec (h : Partition k R m b) {size : Nat} (hdvd : k ∣ size) (hle : k ≤ size)
    (hlt : size < 2 ^ 32) : (b.allocate size = .ok (none, b) ∧ ∀ c ∈ b.chunks, c.size.get < size) ∨
      ∃ c a b' m', b.allocate size = .ok (some a, b') ∧ m.insert a = .ok m' ∧ a.base = c.base ∧ a.size.get = size ∧
        Moved k m b m' b' c a := by
  rcases SizeBucketedChunkMap.allocate_spec h.unused (h.min ▸ hdvd) (h.min ▸ hle) hlt with
    ⟨hno, hsl⟩ | ⟨c, a, b', hso, hcrv, -⟩
  · exact .inl ⟨hno, hsl⟩
  · have hap : ∀ d ∈ m, d.Apart a := fun d hd => by
      have hap := h.apart d hd c hcrv.mem
      have := hcrv.within
      unfold Chunk.Apart at hap ⊢
      omega
    obtain ⟨m', hins, hm⟩ := insert_ok fun d hd => (hap d hd).base_ne
    have hag : Aligned k a := h.min ▸ hcrv.aligned h.unused (h.min ▸ hdvd)
    exact .inr ⟨c, a, b', m', hso, hins, hcrv.base_eq, hcrv.size_eq, hcrv.mem, hcrv.within, hag, hm,
      hcrv.good, hcrv.min.trans h.min, fun d => (hcrv.chunks d).trans
        (mem_replace_iff h.spaced hcrv.mem hcrv.within hag.fits)⟩

end
end TouchHLE.Mem
