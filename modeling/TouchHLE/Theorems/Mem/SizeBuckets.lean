import TouchHLE.Theorems.Mem.ChunkMap

/-! The size index of a `SizeBucketedChunkMap`. Under the index invariant `Indexed` every operation of the
    indexed map does to its base-keyed map what the plain operation does, and its assertions hold. -/

namespace TouchHLE.Mem
open Lib List
variable {m : ChunkMap} {b : SizeBucketedChunkMap} {c r : Chunk}

namespace SizeBucketedChunkMap

/-- The buckets hold exactly the chunks of the base-keyed map, each once and in the bucket of its size. -/
structure Indexed (b : SizeBucketedChunkMap) : Prop where
  pos : 0 < b.minChunkSize
  length : b.chunksByLog2Size.length = 32 - .log2 b.minChunkSize
  le_size : ∀ c ∈ b.chunks, b.minChunkSize ≤ c.size.get
  size_lt : ∀ c ∈ b.chunks, c.size.get < 2 ^ 32
  nodup : ∀ l ∈ b.chunksByLog2Size, l.Nodup
  mem_bucket : ∀ i l, b.chunksByLog2Size[i]? = some l → ∀ c, c ∈ l ↔ c ∈ b.chunks ∧ b.bucketFor c.size.get = i

/-- An indexed map whose chunks are spaced at multiples of the minimum size. -/
structure Good (b : SizeBucketedChunkMap) : Prop where
  indexed : b.Indexed
  spaced : b.chunks.Spaced b.minChunkSize

theorem log2_mono {m n : Nat} (hm : 0 < m) (h : m ≤ n) : Nat.log2 m ≤ Nat.log2 n :=
  (Nat.le_log2 (by omega)).mpr (Nat.le_trans (Nat.log2_self_le (by omega)) h)

theorem new_indexed {k : Nat} (hk : 0 < k) (hlt : k < 2 ^ 32) : (new k).Indexed where
  pos := hk
  length := by
    have h31 : .log2 (2 ^ 32 - 1) = 31 := by decide
    have hle : .log2 k < 32 := (Nat.log2_lt (by omega)).mpr hlt
    simp only [new, length_replicate, h31]
    omega
  le_size := fun c hc => absurd hc (ChunkMap.not_mem_empty c)
  size_lt := fun c hc => absurd hc (ChunkMap.not_mem_empty c)
  nodup := fun l hl => by
    rw [(mem_replicate.mp hl).2]
    exact nodup_nil
  mem_bucket := fun i l hl c => by
    have hnil : l = [] := (mem_replicate.mp (mem_of_getElem? hl)).2
    simp [hnil, new]

namespace Indexed

/-- Every admissible size has a bucket. -/
theorem exists_bucket (h : b.Indexed) {n : Nat} (hn : b.minChunkSize ≤ n) (hlt : n < 2 ^ 32) :
    ∃ l, b.chunksByLog2Size[b.bucketFor n]? = some l := by
  have := h.pos
  have hlog : .log2 n < 32 := (Nat.log2_lt (by omega)).mpr hlt
  have hmon := log2_mono h.pos hn
  have hi : b.bucketFor n < b.chunksByLog2Size.length := by
    rw [h.length, bucketFor]
    omega
  exact ⟨_, getElem?_eq_getElem hi⟩

theorem exists_bucket_of_mem (h : b.Indexed) (hc : c ∈ b.chunks) :
    ∃ l, b.chunksByLog2Size[b.bucketFor c.size.get]? = some l ∧ c ∈ l := by
  obtain ⟨l, hl⟩ := h.exists_bucket (h.le_size c hc) (h.size_lt c hc)
  exact ⟨l, hl, (h.mem_bucket _ _ hl c).mpr ⟨hc, rfl⟩⟩

theorem update (h : b.Indexed) {i : Nat} {l l'} (hl : b.chunksByLog2Size[i]? = some l)
    (hnd : l'.Nodup) (hmem : ∀ c, c ∈ l' ↔ c ∈ m ∧ b.bucketFor c.size.get = i)
    (hoh : ∀ c, b.bucketFor c.size.get ≠ i → (c ∈ m ↔ c ∈ b.chunks))
    (hle : ∀ c ∈ m, b.minChunkSize ≤ c.size.get) (hlt : ∀ c ∈ m, c.size.get < 2 ^ 32) :
    Indexed { b with chunks := m, chunksByLog2Size := b.chunksByLog2Size.set i l' } where
  pos := h.pos
  length := by
    rw [length_set]
    exact h.length
  le_size := hle
  size_lt := hlt
  nodup := fun l₂ hl₂ => by
    rcases mem_or_eq_of_mem_set hl₂ with hl₂ | rfl
    · exact h.nodup l₂ hl₂
    · exact hnd
  mem_bucket := fun j l₂ hl₂ c => by
    have hi : i < b.chunksByLog2Size.length := (List.getElem?_eq_some_iff.mp hl).1
    by_cases hij : i = j
    · subst hij
      rw [getElem?_set_self hi, Option.some_inj] at hl₂
      subst hl₂
      exact hmem c
    · rw [getElem?_set_ne hij] at hl₂
      rw [h.mem_bucket j l₂ hl₂ c]
      refine and_congr_left fun hj => (hoh c ?_).symm
      intro heq
      exact hij (heq.symm.trans hj)

theorem mem_iter (h : b.Indexed) : c ∈ b.iter ↔ c ∈ b.chunks := by
  constructor
  · intro hc
    obtain ⟨l, hl, hcl⟩ := mem_flatten.mp hc
    obtain ⟨i, hi⟩ := mem_iff_getElem?.mp hl
    exact ((h.mem_bucket i l hi c).mp hcl).1
  · intro hc
    obtain ⟨l, hl, hcl⟩ := h.exists_bucket_of_mem hc
    exact mem_flatten.mpr ⟨l, mem_of_getElem? hl, hcl⟩

end Indexed

theorem insert_ok (h : b.Indexed) (hle : b.minChunkSize ≤ c.size.get)
    (hlt : c.size.get < 2 ^ 32) (hfr : ∀ d ∈ b.chunks, d.base ≠ c.base) :
    ∃ b', b.insert c = .ok b' ∧ b'.Indexed ∧ b'.minChunkSize = b.minChunkSize ∧
      ∀ d, d ∈ b'.chunks ↔ d = c ∨ d ∈ b.chunks := by
  obtain ⟨m, hins, hm⟩ := ChunkMap.insert_ok hfr
  obtain ⟨l, hl⟩ := h.exists_bucket hle hlt
  have hcl : c ∉ l := fun hc => hfr c ((h.mem_bucket _ _ hl c).mp hc).1 rfl
  refine ⟨{ b with chunks := m, chunksByLog2Size := b.chunksByLog2Size.set (b.bucketFor c.size.get) (l ++ [c]) },
    by simp [insert, Nat.not_lt.mpr hle, hins, hl], ?_, rfl, hm⟩
  refine h.update hl ?_ ?_ ?_ ?_ ?_
  · exact nodup_append.mpr ⟨h.nodup l (mem_of_getElem? hl), nodup_singleton c,
      fun d hd e he heq => hcl (by rw [← mem_singleton.mp he, ← heq]; exact hd)⟩
  · intro d
    rw [mem_append, mem_singleton, h.mem_bucket _ _ hl, hm]
    constructor
    · rintro (⟨hd, hi⟩ | rfl)
      · exact ⟨.inr hd, hi⟩
      · exact ⟨.inl rfl, rfl⟩
    · rintro ⟨rfl | hd, hi⟩
      · exact .inr rfl
      · exact .inl ⟨hd, hi⟩
  · intro d hd
    rw [hm]
    exact ⟨fun hor => hor.resolve_left fun heq => hd (by rw [heq]), .inr⟩
  · intro d hd
    rcases (hm d).mp hd with rfl | hd
    · exact hle
    · exact h.le_size d hd
  · intro d hd
    rcases (hm d).mp hd with rfl | hd
    · exact hlt
    · exact h.size_lt d hd

theorem Indexed.dropAt {l} {idx : Nat} (h : b.Indexed)
    (hl : b.chunksByLog2Size[b.bucketFor c.size.get]? = some l) (hidx : l[idx]? = some c)
    (hm : ∀ d, d ∈ m ↔ d ∈ b.chunks ∧ d ≠ c) :
    Indexed { b with chunks := m,
                     chunksByLog2Size := b.chunksByLog2Size.set (b.bucketFor c.size.get) (Vec.swapRemove l idx) } := by
  have hnd := h.nodup l (mem_of_getElem? hl)
  refine h.update hl (Vec.swapRemove_nodup hidx hnd) (fun d => ?_) (fun d hd => ?_)
    (fun d hd => h.le_size d ((hm d).mp hd).1) (fun d hd => h.size_lt d ((hm d).mp hd).1)
  · rw [Vec.mem_swapRemove hidx hnd, h.mem_bucket _ _ hl, hm]
    exact and_right_comm
  · rw [hm]
    exact ⟨And.left, fun hdb => ⟨hdb, fun heq => hd (by rw [heq])⟩⟩

theorem removed_some (h : b.Indexed) (hc : c ∈ b.chunks) (hm : ∀ d, d ∈ m ↔ d ∈ b.chunks ∧ d ≠ c) :
    ∃ b', b.removed (some c, m) = .ok (some c, b') ∧ b'.Indexed ∧ b'.minChunkSize = b.minChunkSize ∧ b'.chunks = m := by
  obtain ⟨l, hl, hcl⟩ := h.exists_bucket_of_mem hc
  obtain ⟨idx, hpos⟩ := Vec.rposition_isSome (p := fun d => decide (c.base = d.base)) hcl (by simp)
  obtain ⟨d, hd, hbs⟩ := Vec.rposition_eq_some hpos
  -- The last chunk of the bucket with the base of `c` is `c` itself, since bases are keys.
  have hdc : d = c := by
    have hdm := ((h.mem_bucket _ _ hl d).mp (mem_of_getElem? hd)).1
    simp only [decide_eq_true_eq] at hbs
    exact ChunkMap.eq_of_base hdm hc hbs.symm
  subst hdc
  refine ⟨{ b with chunks := m, chunksByLog2Size := b.chunksByLog2Size.set (b.bucketFor d.size.get) (Vec.swapRemove l idx) },
    ?_, h.dropAt hl hd hm, rfl, rfl⟩
  have hbck : ({ b with chunks := m } : SizeBucketedChunkMap).bucketFor d.size.get = b.bucketFor d.size.get := rfl
  simp [removed, removeFromBucket, hbck, hl, hpos, hd]

theorem removeWithBase_of_mem (h : b.Indexed) (hc : c ∈ b.chunks) :
    ∃ b', b.removeWithBase c.base = .ok (some c, b') ∧ b'.Indexed ∧ b'.minChunkSize = b.minChunkSize ∧
      ∀ d, d ∈ b'.chunks ↔ d ∈ b.chunks ∧ d ≠ c := by
  obtain ⟨m, hrem, hm⟩ := ChunkMap.removeWithBase_of_mem hc
  obtain ⟨b', hb', hidx, hmin, rfl⟩ := removed_some h hc hm
  exact ⟨b', by rw [removeWithBase, hrem, hb'], hidx, hmin, hm⟩

theorem removeWithBase_of_not {base : Nat} (h : ∀ d ∈ b.chunks, d.base ≠ base) : b.removeWithBase base = .ok (none, b) := by
  rw [removeWithBase, ChunkMap.removeWithBase_of_not h]
  rfl

theorem removeWithEnd_spec (h : b.Good) (e : Nat) :
    (∃ c ∈ b.chunks, c.hi = e ∧ ∃ b', b.removeWithEnd e = .ok (some c, b') ∧ b'.Indexed ∧
        b'.minChunkSize = b.minChunkSize ∧ ∀ d, d ∈ b'.chunks ↔ d ∈ b.chunks ∧ d ≠ c) ∨
      ((e < 2 ^ 32 → ∀ c ∈ b.chunks, c.hi ≠ e) ∧ b.removeWithEnd e = .ok (none, b)) := by
  rcases ChunkMap.removeWithEnd_spec h.spaced e with ⟨c, hc, hhi, -, hrem⟩ | ⟨hno, hrem⟩
  · left
    obtain ⟨m, hbs, hm⟩ := ChunkMap.removeWithBase_of_mem hc
    rw [hbs] at hrem
    obtain ⟨b', hb', hidx, hmin, rfl⟩ := removed_some h.indexed hc hm
    exact ⟨c, hc, hhi, b', by rw [removeWithEnd, hrem, ok_bind, hb'], hidx, hmin, hm⟩
  · right
    refine ⟨hno, ?_⟩
    rw [removeWithEnd, hrem]
    rfl

theorem insert?_ok {o} (h : b.Indexed) (hins : b.chunks.insert? o = .ok m)
    (hsz : ∀ c, o = some c → b.minChunkSize ≤ c.size.get ∧ c.size.get < 2 ^ 32) :
    ∃ b', b.insert? o = .ok b' ∧ b'.Indexed ∧ b'.minChunkSize = b.minChunkSize ∧ b'.chunks = m := by
  cases o with
  | none =>
    cases hins
    exact ⟨b, rfl, h, rfl, rfl⟩
  | some c =>
    obtain ⟨hfr, hm⟩ := ChunkMap.insert_eq_ok hins
    obtain ⟨hle, hlt⟩ := hsz c rfl
    obtain ⟨b', hb', hidx, hmin, hmem⟩ := insert_ok h hle hlt hfr
    exact ⟨b', hb', hidx, hmin, ChunkMap.ext_mem fun d => (hmem d).trans (hm d).symm⟩

theorem Good.piece_size {d} (h : b.Good) (hc : c ∈ b.chunks)
    (hr : ChunkMap.Aligned b.minChunkSize r) (hd : d ∈ c.pieces r) :
    b.minChunkSize ≤ d.size.get ∧ d.size.get < 2 ^ 32 := by
  have hfit := h.spaced.fits c hc
  have hdvd := Chunk.pieces_dvd hfit hr.fits hd (h.spaced.dvd_base c hc) (h.spaced.dvd_hi c hc) hr.dvd_base hr.dvd_hi
  obtain ⟨hlo, hhi, -⟩ := Chunk.pieces_within hfit hr.fits hd
  refine ⟨ChunkMap.Aligned.le_size ⟨by omega, hdvd.1, hdvd.2⟩, ?_⟩
  have := h.indexed.size_lt c hc
  have := c.hi_eq
  have := d.hi_eq
  omega

theorem insert?_pieces {rest : SizeBucketedChunkMap} (h : b.Good) (hc : c ∈ b.chunks)
    (hr : ChunkMap.Aligned b.minChunkSize r) (hrs : rest.Indexed) (hmin : rest.minChunkSize = b.minChunkSize)
    (hmem : ∀ d, d ∈ rest.chunks ↔ d ∈ b.chunks ∧ d ≠ c) :
    ∃ b₁ b₂, rest.insert? (c.difference r).1 = .ok b₁ ∧ b₁.insert? (c.difference r).2 = .ok b₂ ∧ b₂.Good ∧
      b₂.minChunkSize = b.minChunkSize ∧ ∀ d, d ∈ b₂.chunks ↔ (d ∈ b.chunks ∧ d ≠ c) ∨ d ∈ c.pieces r := by
  obtain ⟨n₁, n₂, h₁, h₂, hm⟩ := ChunkMap.insert?_pieces h.spaced hc hr hmem
  have hsz : ∀ d, (c.difference r).1 = some d ∨ (c.difference r).2 = some d →
      b.minChunkSize ≤ d.size.get ∧ d.size.get < 2 ^ 32 :=
    fun d hd => h.piece_size hc hr (by simpa [Chunk.pieces] using hd)
  obtain ⟨b₁, hb₁, hidx₁, hmin₁, rfl⟩ := insert?_ok hrs h₁ fun d hd => hmin ▸ hsz d (.inl hd)
  obtain ⟨b₂, hb₂, hidx₂, hmin₂, rfl⟩ := insert?_ok hidx₁ h₂ fun d hd => hmin₁ ▸ hmin ▸ hsz d (.inr hd)
  have hmns : b₂.minChunkSize = b.minChunkSize := hmin₂.trans (hmin₁.trans hmin)
  exact ⟨b₁, b₂, hb₁, hb₂, ⟨hidx₂, hmns ▸ h.spaced.replace hc hr hm⟩, hmns, hm⟩

theorem removeFrom_ok (h : b.Good) (hc : c ∈ b.chunks) (hr : ChunkMap.Aligned b.minChunkSize r) :
    ∃ b', b.removeFrom r c.base = .ok b' ∧ b'.Good ∧ b'.minChunkSize = b.minChunkSize ∧
      ∀ d, d ∈ b'.chunks ↔ (d ∈ b.chunks ∧ d ≠ c) ∨ d ∈ c.pieces r := by
  obtain ⟨rest, hrem, hidx, hmin, hrs⟩ := removeWithBase_of_mem h.indexed hc
  obtain ⟨b₁, b₂, h₁, h₂, hgd, hmns, hmem⟩ := insert?_pieces h hc hr hidx hmin hrs
  exact ⟨b₂, by simp [removeFrom, hrem, h₁, h₂], hgd, hmns, hmem⟩

theorem removeRange_ok (h : b.Good) (hr : ChunkMap.Aligned b.minChunkSize r) (htop : b.chunks.TopSafe r) :
    ∃ b', b.removeRange r = .ok b' ∧ b'.Good ∧ b'.minChunkSize = b.minChunkSize ∧
      ∀ d, d ∈ b'.chunks ↔ ∃ c ∈ b.chunks, d ∈ c.pieces r := by
  obtain ⟨l, hl, hnd, hmem⟩ := ChunkMap.overlappingChunks_ok h.spaced hr.fits htop
  obtain ⟨b', hb', ⟨hgd, hmin⟩, hmm⟩ := foldlM_replace (fun c (s : SizeBucketedChunkMap) => c ∈ s.chunks)
    (fun s => s.Good ∧ s.minChunkSize = b.minChunkSize) (fun c d => d ∈ c.pieces r)
    (fun s c => removeFrom r s c.base) (fun s c hs hc => by
      obtain ⟨t, ht, hgd, hmin, hmem⟩ := removeFrom_ok hs.1 hc (hs.2 ▸ hr)
      exact ⟨t, ht, ⟨hgd, hmin.trans hs.2⟩, hmem⟩)
    (fun _ _ _ hs hb hc hne => hs.1.spaced.not_mem_pieces hr.fits hb hc hne)
    l b hnd.of_map ⟨h, rfl⟩ fun c hc => ((hmem c).mp hc).1
  refine ⟨b', ?_, hgd, hmin, fun d => (hmm d).trans (ChunkMap.mem_pieces_cut h.spaced hr.fits hmem)⟩
  rw [removeRange, hl, ok_bind, foldlM_map]
  exact hb'

end SizeBucketedChunkMap
end TouchHLE.Mem
