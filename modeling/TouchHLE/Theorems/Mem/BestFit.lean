import TouchHLE.Theorems.Mem.SizeBuckets

/-! The search of the size index. `allocate` carves its result from a smallest chunk that is large
    enough, and fails only when no chunk is. -/

namespace TouchHLE.Mem
open Lib List

namespace SizeBucketedChunkMap

variable {size m n : Nat} {b b' : SizeBucketedChunkMap} {c a : Chunk}

/-! ### The search in one bucket -/

/-- A search started from `best` gives `best` or a chunk of the list that fits, and none that fits is
    smaller. -/
theorem bestChunk_eq_some {idx s : Nat} :
    ∀ {l : List (Chunk × Nat)} {best : Option (Nat × Nat)}, (∀ i t, best = some (i, t) → size ≤ t) →
      bestChunk size l best = some (idx, s) →
      size ≤ s ∧ (best = some (idx, s) ∨ ∃ c, (c, idx) ∈ l ∧ c.size.get = s) ∧
        (∀ e ∈ l, size ≤ e.1.size.get → s ≤ e.1.size.get) ∧ ∀ i t, best = some (i, t) → s ≤ t
  | [], best, hbst, h => by
    have hb : best = some (idx, s) := h
    refine ⟨hbst idx s hb, .inl hb, by simp, fun i t ht => ?_⟩
    rw [hb] at ht
    cases ht
    exact Nat.le_refl _
  | (c, i) :: rest, best, hbst, h => by
    simp only [bestChunk] at h
    split at h
    · rename_i hcd
      have hbtt : ∀ j t, best = some (j, t) → c.size.get < t := fun j t ht => by
        simpa [ht] using hcd.2
      split at h
      · -- An exact fit ends the search, and nothing that fits is smaller.
        cases h
        exact ⟨hcd.1, .inr ⟨c, mem_cons_self, rfl⟩, fun e _ he => by omega, fun j t ht => (hbtt j t ht).le⟩
      · obtain ⟨hle, hsrc, hmin, hprv⟩ := bestChunk_eq_some (fun j t ht => by cases ht; exact hcd.1) h
        have hsc : s ≤ c.size.get := hprv i _ rfl
        refine ⟨hle, .inr ?_, fun e he hsz => ?_, fun j t ht => Nat.le_trans hsc (hbtt j t ht).le⟩
        · rcases hsrc with heq | ⟨d, hd, hds⟩
          · cases heq
            exact ⟨c, mem_cons_self, rfl⟩
          · exact ⟨d, mem_cons_of_mem _ hd, hds⟩
        · rcases mem_cons.mp he with rfl | he
          · exact hsc
          · exact hmin e he hsz
    · rename_i hcd
      obtain ⟨hle, hsrc, hmin, hprv⟩ := bestChunk_eq_some hbst h
      refine ⟨hle, ?_, fun e he hsz => ?_, hprv⟩
      · rcases hsrc with heq | ⟨d, hd, hds⟩
        · exact .inl heq
        · exact .inr ⟨d, mem_cons_of_mem _ hd, hds⟩
      · rcases mem_cons.mp he with rfl | he
        · -- The chunk fits but was passed over, so an earlier one is at most as large.
          cases hb : best with
          | none => exact absurd ⟨hsz, by simp [hb]⟩ hcd
          | some p =>
            have hnot : ¬c.size.get < p.2 := fun hlt => hcd ⟨hsz, by simpa [hb] using hlt⟩
            have := hprv p.1 p.2 hb
            simp only
            omega
        · exact hmin e he hsz

theorem bestChunk_eq_none : ∀ {l : List (Chunk × Nat)} {best : Option (Nat × Nat)}, bestChunk size l best = none →
      best = none ∧ ∀ e ∈ l, e.1.size.get < size
  | [], best, h => ⟨h, by simp⟩
  | (c, i) :: rest, best, h => by
    simp only [bestChunk] at h
    split at h
    · split at h
      · cases h
      · exact absurd (bestChunk_eq_none h).1 (by simp)
    · rename_i hcd
      obtain ⟨hno, hrs⟩ := bestChunk_eq_none h
      refine ⟨hno, fun e he => ?_⟩
      rcases mem_cons.mp he with rfl | he
      · by_contra hle
        exact hcd ⟨Nat.le_of_not_lt hle, by simp [hno]⟩
      · exact hrs e he

structure Carved (b b' : SizeBucketedChunkMap) (size : Nat) (c a : Chunk) : Prop where
  mem : c ∈ b.chunks
  base_eq : a.base = c.base
  size_eq : a.size.get = size
  le_size : size ≤ c.size.get
  good : b'.Good
  min : b'.minChunkSize = b.minChunkSize
  chunks : ∀ d, d ∈ b'.chunks ↔ (d ∈ b.chunks ∧ d ≠ c) ∨ d ∈ c.pieces a

theorem Carved.hi (h : Carved b b' size c a) : a.hi = c.base + size := by rw [a.hi_eq, h.base_eq, h.size_eq]

theorem Carved.within (h : Carved b b' size c a) : c.base ≤ a.base ∧ a.hi ≤ c.hi := by
  have := h.hi
  have := h.base_eq
  have := h.le_size
  have := c.hi_eq
  omega

theorem Carved.aligned (h : Carved b b' size c a)
    (hb : b.Good) (hdvd : b.minChunkSize ∣ size) : ChunkMap.Aligned b.minChunkSize a := by
  refine ⟨Nat.le_trans h.within.2 (hb.spaced.fits c h.mem), h.base_eq ▸ hb.spaced.dvd_base c h.mem, ?_⟩
  rw [h.hi]
  exact Nat.dvd_add (hb.spaced.dvd_base c h.mem) hdvd

/-- What carving `size` bytes off the front of `c` does to any indexed map: the remainder of `c`, if any, replaces it. -/
structure Cut (b b' : SizeBucketedChunkMap) (size : Nat) (c a : Chunk) : Prop where
  mem : c ∈ b.chunks
  base_eq : a.base = c.base
  size_eq : a.size.get = size
  le_size : size ≤ c.size.get
  indexed : b'.Indexed
  min : b'.minChunkSize = b.minChunkSize
  chunks : ∀ d, d ∈ b'.chunks ↔ (d ∈ b.chunks ∧ d ≠ c) ∨ d.base = c.base + size ∧ d.hi = c.hi

theorem Cut.carved (h : Cut b b' size c a) (hb : b.Good) (hdvd : b.minChunkSize ∣ size) : Carved b b' size c a := by
  have hce := c.hi_eq
  have hae := a.hi_eq
  have hbs := h.base_eq
  have hsz := h.size_eq
  have hle := h.le_size
  have hfit := hb.spaced.fits c h.mem
  have hag : ChunkMap.Aligned b.minChunkSize a :=
    ⟨by omega, hbs ▸ hb.spaced.dvd_base c h.mem, by rw [hae, hbs, hsz]; exact Nat.dvd_add (hb.spaced.dvd_base c h.mem) hdvd⟩
  have hchn : ∀ d, d ∈ b'.chunks ↔ (d ∈ b.chunks ∧ d ≠ c) ∨ d ∈ c.pieces a := fun d => by
    have hnot : ¬c.Apart a := by
      unfold Chunk.Apart
      have := a.base_lt_hi
      omega
    have := d.base_lt_hi
    rw [h.chunks, Chunk.mem_pieces hfit hag.fits]
    simp only [hnot, false_and, not_false_eq_true, true_and, false_or]
    refine or_congr_right ?_
    omega
  exact ⟨h.mem, hbs, hsz, hle, ⟨h.indexed, h.min ▸ hb.spaced.replace h.mem hag hchn⟩, h.min, hchn⟩

def Carves (b : SizeBucketedChunkMap) (size : Nat) (c : Chunk) (r : Except Panic (Option Chunk × SizeBucketedChunkMap)) : Prop :=
  if c.size.get ≠ size ∧ c.size.get < size + b.minChunkSize then r = .error .belowMinimum
  else ∃ a b', r = .ok (some a, b') ∧ Cut b b' size c a

theorem allocateInBucket_spec {i : Nat} {l} (h : b.Indexed) (hs : b.chunks.Spaced 1)
    (hl : b.chunksByLog2Size[i]? = some l) (hpos : 0 < size) :
    (b.allocateInBucket size i = .ok (none, b) ∧ ∀ c ∈ l, c.size.get < size) ∨
      ∃ c ∈ l, size ≤ c.size.get ∧ (∀ d ∈ l, size ≤ d.size.get → c.size.get ≤ d.size.get) ∧
        b.Carves size c (b.allocateInBucket size i) := by
  cases hbst : bestChunk size l.zipIdx.reverse none with
  | none =>
    refine .inl ⟨by simp [allocateInBucket, hl, hbst], fun c hc => ?_⟩
    obtain ⟨j, hj⟩ := mem_iff_getElem?.mp hc
    exact (bestChunk_eq_none hbst).2 (c, j) (mem_reverse.mpr (mem_zipIdx_iff_getElem?.mpr hj))
  | some e =>
    obtain ⟨idx, s⟩ := e
    obtain ⟨hle, hsrc, hmin, -⟩ := bestChunk_eq_some (by simp) hbst
    obtain ⟨c, hc, rfl⟩ := hsrc.resolve_left (by simp)
    have hidx : l[idx]? = some c := mem_zipIdx_iff_getElem?.mp (mem_reverse.mp hc)
    have hcl := mem_of_getElem? hidx
    obtain ⟨hcb, hci⟩ := (h.mem_bucket i l hl c).mp hcl
    have hfit := hs.fits c hcb
    have hce := c.hi_eq
    obtain ⟨m, hrem, hm⟩ := ChunkMap.removeWithBase_of_mem hcb
    have hdr : Indexed { b with chunks := m, chunksByLog2Size := b.chunksByLog2Size.set i (Vec.swapRemove l idx) } := by
      subst hci
      exact h.dropAt hl hidx hm
    obtain ⟨a, ha, hab, hahi⟩ := Chunk.new_ok (b := c.base) hpos
    have has : a.size.get = size := by
      have := a.hi_eq
      omega
    refine .inr ⟨c, hcl, hle, fun d hd hsz => ?_, ?_⟩
    · obtain ⟨j, hj⟩ := mem_iff_getElem?.mp hd
      exact hmin (d, j) (mem_reverse.mpr (mem_zipIdx_iff_getElem?.mpr hj)) hsz
    unfold Carves
    by_cases hexa : c.size.get = size
    · rw [if_neg fun hnot => hnot.1 hexa]
      refine ⟨c, { b with chunks := m, chunksByLog2Size := b.chunksByLog2Size.set i (Vec.swapRemove l idx) }, ?_, ?_⟩
      · simp only [allocateInBucket, hl, hbst, hidx, hrem]
        simp [hexa]
      refine ⟨hcb, rfl, hexa, hle, hdr, rfl, fun d => (hm d).trans ⟨.inl, fun hor => hor.resolve_right ?_⟩⟩
      have := d.base_lt_hi
      omega
    · obtain ⟨rump, hrmp, hrb, hrhi⟩ := Chunk.new_ok (b := c.base + size) (n := c.size.get - size) (by omega)
      have hre := rump.hi_eq
      have hwp : wrap (c.base + size) = c.base + size := wrap_of_lt (by omega)
      by_cases hsl : c.size.get < size + b.minChunkSize
      · have hbw : rump.size.get < b.minChunkSize := by omega
        rw [if_pos ⟨hexa, hsl⟩]
        simp only [allocateInBucket, hl, hbst, hidx, hrem]
        simp [hexa, ha, hwp, hrmp, insert, hbw]
      · have hfr : ∀ d ∈ m, d.base ≠ rump.base := fun d hd heq => by
          obtain ⟨hd, hdc⟩ := (hm d).mp hd
          have hap := hs.apart d hd c hcb hdc
          have := d.base_lt_hi
          unfold Chunk.Apart at hap
          omega
        obtain ⟨b', hb', hidx', hmin', hmem'⟩ := insert_ok hdr (show b.minChunkSize ≤ rump.size.get by omega) (by omega) hfr
        rw [if_neg fun hnot => hsl hnot.2]
        refine ⟨a, b', ?_, hcb, hab, has, hle, hidx', hmin', fun d => ?_⟩
        · simp only [allocateInBucket, hl, hbst, hidx, hrem]
          simp [hexa, ha, hwp, hrmp, hb']
        · rw [hmem', or_comm, ← hm]
          refine or_congr_right ⟨?_, fun hd => Chunk.eq_of_ends (by omega) (by omega)⟩
          rintro rfl
          omega

/-! ### The search over the buckets -/

theorem bucketFor_mono (hm : 0 < m) (h : m ≤ n) : b.bucketFor m ≤ b.bucketFor n := Nat.sub_le_sub_right (log2_mono hm h) _

theorem Indexed.lt_of_bucketFor_lt (h : b.Indexed) (hn : b.minChunkSize ≤ n)
    (hlt : b.bucketFor m < b.bucketFor n) : m < n := by
  by_contra hle
  have hpos := h.pos
  have := bucketFor_mono (b := b) (by omega) (Nat.le_of_not_lt hle)
  omega

theorem Indexed.mem_drop (h : b.Indexed) {d} (hd : d ∈ b.chunks) {i : Nat} (hlt : i < b.bucketFor d.size.get) :
    ∃ l, (b.chunksByLog2Size.drop (i + 1))[b.bucketFor d.size.get - (i + 1)]? = some l ∧ l.isEmpty = false := by
  obtain ⟨l, hl, hdl⟩ := h.exists_bucket_of_mem hd
  refine ⟨l, ?_, isEmpty_eq_false_iff.mpr (ne_nil_of_mem hdl)⟩
  rw [getElem?_drop, ← hl]
  congr 1
  omega

theorem allocate_carves (h : b.Indexed) (hs : b.chunks.Spaced 1) (hmin : b.minChunkSize ≤ size) (hlt : size < 2 ^ 32) :
    (b.allocate size = .ok (none, b) ∧ ∀ c ∈ b.chunks, c.size.get < size) ∨
      ∃ c ∈ b.chunks, size ≤ c.size.get ∧ (∀ d ∈ b.chunks, size ≤ d.size.get → c.size.get ≤ d.size.get) ∧
        b.Carves size c (b.allocate size) := by
  have hpos : 0 < size := Nat.lt_of_lt_of_le h.pos hmin
  have hund : ¬size < b.minChunkSize := Nat.not_lt.mpr hmin
  obtain ⟨l, hl⟩ := h.exists_bucket hmin hlt
  rcases allocateInBucket_spec h hs hl hpos with ⟨hno, hsl⟩ | ⟨c, hcl, hle, hla, hcar⟩
  · -- No chunk of the first bucket fits, so every chunk that fits is in a later one.
    have hlr : ∀ d ∈ b.chunks, size ≤ d.size.get → b.bucketFor size < b.bucketFor d.size.get := fun d hd hsz => by
      have hle := bucketFor_mono (b := b) hpos hsz
      refine Nat.lt_of_le_of_ne hle fun heq => ?_
      have := hsl d ((h.mem_bucket _ _ hl d).mpr ⟨hd, heq.symm⟩)
      omega
    cases hfn : (b.chunksByLog2Size.drop (b.bucketFor size + 1)).findIdx? (fun bucket => !bucket.isEmpty) with
    | none =>
      refine .inl ⟨by simp [allocate, if_neg hund, hno, hfn], fun d hd => ?_⟩
      by_contra hle
      obtain ⟨l', hl', hne⟩ := h.mem_drop hd (hlr d hd (Nat.le_of_not_lt hle))
      simpa [hne] using findIdx?_eq_none_iff.mp hfn l' (mem_of_getElem? hl')
    | some j =>
      obtain ⟨hj, hne, hbe⟩ := findIdx?_eq_some_iff_getElem.mp hfn
      have hl' : b.chunksByLog2Size[j + b.bucketFor size + 1]? =
          some ((b.chunksByLog2Size.drop (b.bucketFor size + 1))[j]) := by
        rw [← getElem?_eq_getElem hj, getElem?_drop]
        congr 1
        omega
      rcases allocateInBucket_spec h hs hl' hpos with ⟨-, hsl'⟩ | ⟨c, hcl, hle, hla, hcar⟩
      · -- The bucket found is not empty, and all its chunks are larger than `size`.
        obtain ⟨d, hd⟩ := exists_mem_of_ne_nil _ (fun hnil => by simp [hnil] at hne :
          (b.chunksByLog2Size.drop (b.bucketFor size + 1))[j] ≠ [])
        obtain ⟨hdb, hdi⟩ := (h.mem_bucket _ _ hl' d).mp hd
        have := h.lt_of_bucketFor_lt (m := size) (h.le_size d hdb) (by omega)
        have := hsl' d hd
        omega
      · obtain ⟨hcb, hci⟩ := (h.mem_bucket _ _ hl' c).mp hcl
        refine .inr ⟨c, hcb, hle, fun d hd hsz => ?_, ?_⟩
        · have hlt' := hlr d hd hsz
          rcases Nat.lt_trichotomy (b.bucketFor d.size.get) (j + b.bucketFor size + 1) with hb | hb | hb
          · -- The buckets in between are empty.
            exfalso
            obtain ⟨l₂, hl₂, hne₂⟩ := h.mem_drop hd hlt'
            obtain ⟨_, hget⟩ := List.getElem?_eq_some_iff.mp hl₂
            have hem := hbe (b.bucketFor d.size.get - (b.bucketFor size + 1)) (by omega)
            rw [hget, hne₂] at hem
            exact hem rfl
          · exact hla d ((h.mem_bucket _ _ hl' d).mpr ⟨hd, hb⟩) hsz
          · have hclt : b.bucketFor c.size.get < b.bucketFor d.size.get := by omega
            exact (h.lt_of_bucketFor_lt (h.le_size d hd) hclt).le
        · simp only [allocate, if_neg hund, hno, ok_bind, hfn]
          exact hcar
  · obtain ⟨hcb, hci⟩ := (h.mem_bucket _ _ hl c).mp hcl
    refine .inr ⟨c, hcb, hle, fun d hd hsz => ?_, ?_⟩
    · rcases Nat.eq_or_lt_of_le (bucketFor_mono hpos hsz) with heq | hlt'
      · exact hla d ((h.mem_bucket _ _ hl d).mpr ⟨hd, heq.symm⟩) hsz
      · exact (h.lt_of_bucketFor_lt (h.le_size d hd) (by omega)).le
    · unfold Carves at hcar ⊢
      split_ifs at hcar ⊢
      · simp [allocate, if_neg hund, hcar]
      · obtain ⟨a, b', hso, hcut⟩ := hcar
        exact ⟨a, b', by simp [allocate, if_neg hund, hso], hcut⟩

theorem allocate_spec (h : b.Good) (hdvd : b.minChunkSize ∣ size)
    (hmin : b.minChunkSize ≤ size) (hlt : size < 2 ^ 32) :
    (b.allocate size = .ok (none, b) ∧ ∀ c ∈ b.chunks, c.size.get < size) ∨
      ∃ c a b', b.allocate size = .ok (some a, b') ∧ Carved b b' size c a ∧
        ∀ d ∈ b.chunks, size ≤ d.size.get → c.size.get ≤ d.size.get := by
  have hspd := h.spaced
  refine (allocate_carves h.indexed ⟨hspd.fits, hspd.apart, by simp, by simp⟩ hmin hlt).imp_right ?_
  rintro ⟨c, hc, hle, hla, hcar⟩
  -- a remainder is a multiple of the minimum size
  have hsz : b.minChunkSize ∣ c.size.get - size :=
    Nat.dvd_sub (c.size_eq ▸ Nat.dvd_sub (hspd.dvd_hi c hc) (hspd.dvd_base c hc)) hdvd
  have hlrg : ¬(c.size.get ≠ size ∧ c.size.get < size + b.minChunkSize) := by
    rintro ⟨hne, hsl⟩
    have := Nat.le_of_dvd (by omega) hsz
    omega
  rw [Carves, if_neg hlrg] at hcar
  obtain ⟨a, b', hso, hcut⟩ := hcar
  exact ⟨c, a, b', hso, hcut.carved h hdvd, hla⟩

end SizeBucketedChunkMap
end TouchHLE.Mem
