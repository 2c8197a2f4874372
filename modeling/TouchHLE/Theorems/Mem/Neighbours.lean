import TouchHLE.Theorems.Mem.BestFit

/-! Freed chunks and their neighbours. A chunk that is given back is looked up on both sides, merged with
    what is found there and put back; the map then occupies what it occupied before and the chunk. -/

namespace TouchHLE.Mem
open Lib Chunk

namespace ChunkMap

variable {k : Nat} {m n : ChunkMap} {r : Chunk}

def Coalesced (m : ChunkMap) : Prop := ∀ c ∈ m, ∀ d ∈ m, c.hi ≠ d.base

/-- Cutting a range out of a map opens a gap: where two of the pieces touch, two chunks touched before. -/
theorem touch_of_pieces (h : m.Spaced k) (hr : r.hi ≤ 2 ^ 32)
    (hn : ∀ d, d ∈ n ↔ ∃ c ∈ m, d ∈ c.pieces r) {d e} (hd : d ∈ n) (he : e ∈ n) (htc : d.hi = e.base) :
    ∃ c ∈ m, ∃ c' ∈ m, c.hi = d.hi ∧ c'.base = d.hi := by
  obtain ⟨c, hc, hd⟩ := (hn d).mp hd
  obtain ⟨c', hc', he⟩ := (hn e).mp he
  have hdc := pieces_within (h.fits c hc) hr hd
  have hec := pieces_within (h.fits c' hc') hr he
  have hdl := d.base_lt_hi
  have hel := e.base_lt_hi
  by_cases hcc : c = c'
  · -- The two pieces of one chunk have the range between them.
    subst hcc
    have hrl := r.base_lt_hi
    have hde : d ≠ e := fun heq => by
      rw [heq] at htc
      omega
    rcases (mem_pieces (h.fits c hc) hr).mp hd with ⟨hap, hdc⟩ | ⟨hap, hd⟩ <;>
      rcases (mem_pieces (h.fits c hc) hr).mp he with ⟨hap', hec⟩ | ⟨hap', he⟩
    · exact absurd (hdc.trans hec.symm) hde
    · exact absurd hap hap'
    · exact absurd hap' hap
    · omega
  · have hap := h.apart c hc c' hc' hcc
    unfold Apart at hap
    exact ⟨c, hc, c', hc', by omega, by omega⟩

theorem Coalesced.pieces (hco : m.Coalesced) (h : m.Spaced k)
    (hr : r.hi ≤ 2 ^ 32) (hn : ∀ d, d ∈ n ↔ ∃ c ∈ m, d ∈ c.pieces r) : n.Coalesced := by
  intro d hd e he htc
  obtain ⟨c, hc, c', hc', hhi, hbs⟩ := touch_of_pieces h hr hn hd he htc
  exact hco c hc c' hc' (hhi.trans hbs.symm)

end ChunkMap

theorem Chunk.merge_comm (c d : Chunk) : c.merge d = d.merge c := by
  simp [merge, Nat.min_comm, Nat.add_comm c.size.get, or_comm]

namespace SizeBucketedChunkMap

variable {b b' : SizeBucketedChunkMap} {c r : Chunk} {p : Chunk → Prop}

theorem Good.insert_ok (h : b.Good) (hc : ChunkMap.Aligned b.minChunkSize c)
    (hlt : c.size.get < 2 ^ 32) (hap : ∀ d ∈ b.chunks, d.Apart c) :
    ∃ b', b.insert c = .ok b' ∧ b'.Good ∧ b'.minChunkSize = b.minChunkSize ∧ ∀ d, d ∈ b'.chunks ↔ d = c ∨ d ∈ b.chunks := by
  obtain ⟨b', hins, hidx, hmin, hmem⟩ :=
    SizeBucketedChunkMap.insert_ok h.indexed hc.le_size hlt fun d hd => (hap d hd).base_ne
  exact ⟨b', hins, ⟨hidx, hmin ▸ h.spaced.add hc hap hmem⟩, hmin, hmem⟩

structure Dropped (b b' : SizeBucketedChunkMap) (p : Chunk → Prop) (o : Option Chunk) : Prop where
  good : b'.Good
  min : b'.minChunkSize = b.minChunkSize
  found : ∀ c, o = some c ↔ c ∈ b.chunks ∧ p c
  chunks : ∀ d, d ∈ b'.chunks ↔ d ∈ b.chunks ∧ ¬p d

theorem Dropped.of_mem (h : b.Good) (hc : c ∈ b.chunks)
    (hp : ∀ d ∈ b.chunks, p d ↔ d = c) (hidx : b'.Indexed) (hmin : b'.minChunkSize = b.minChunkSize)
    (hmem : ∀ d, d ∈ b'.chunks ↔ d ∈ b.chunks ∧ d ≠ c) : Dropped b b' p (some c) where
  good := ⟨hidx, hmin ▸ h.spaced.mono fun d hd => ((hmem d).mp hd).1⟩
  min := hmin
  found := fun d => by
    rw [Option.some_inj]
    constructor
    · rintro rfl
      exact ⟨hc, (hp c hc).mpr rfl⟩
    · rintro ⟨hd, hpd⟩
      exact ((hp d hd).mp hpd).symm
  chunks := fun d => (hmem d).trans (and_congr_right fun hd => not_congr (hp d hd).symm)

theorem Dropped.of_not (h : b.Good) (hp : ∀ d ∈ b.chunks, ¬p d) : Dropped b b p none where
  good := h
  min := rfl
  found := fun c => by
    simp only [reduceCtorEq, false_iff, not_and]
    exact hp c
  chunks := fun d => ⟨fun hd => ⟨hd, hp d hd⟩, And.left⟩

/-- The lookup after `r` finds the chunk that begins where `r` ends. For a chunk `r` at the very top it
    looks at address zero. -/
theorem removeAfter_spec (h : b.Good) (hr : r.hi ≤ 2 ^ 32) (htop : r.hi = 2 ^ 32 → ∀ c ∈ b.chunks, c.base ≠ 0) :
    ∃ o b', b.removeWithBase (wrap (r.lastByte + 1)) = .ok (o, b') ∧ Dropped b b' (fun c => c.base = r.hi) o := by
  rw [wrap_lastByte_succ hr]
  by_cases hhi : r.hi = 2 ^ 32
  · rw [if_pos hhi]
    refine ⟨none, b, removeWithBase_of_not (htop hhi), .of_not h fun d hd hdb => ?_⟩
    have := h.spaced.fits d hd
    have := d.base_lt_hi
    omega
  · rw [if_neg hhi]
    by_cases hex : ∃ c ∈ b.chunks, c.base = r.hi
    · obtain ⟨c, hc, hcb⟩ := hex
      obtain ⟨b', hrem, hidx, hmin, hmem⟩ := removeWithBase_of_mem h.indexed hc
      refine ⟨some c, b', hcb ▸ hrem, .of_mem h hc (fun d hd => ⟨fun hdb => ?_, fun hdc => hdc ▸ hcb⟩) hidx hmin hmem⟩
      exact ChunkMap.eq_of_base hd hc (hdb.trans hcb.symm)
    · have hno : ∀ d ∈ b.chunks, d.base ≠ r.hi := fun d hd hdb => hex ⟨d, hd, hdb⟩
      exact ⟨none, b, removeWithBase_of_not hno, .of_not h hno⟩

theorem removeBefore_spec (h : b.Good) (hr : r.hi ≤ 2 ^ 32) :
    ∃ o b', b.removeWithEnd r.base = .ok (o, b') ∧ Dropped b b' (fun c => c.hi = r.base) o := by
  have hlt : r.base < 2 ^ 32 := Nat.lt_of_lt_of_le r.base_lt_hi hr
  rcases removeWithEnd_spec h r.base with ⟨c, hc, hhi, b', hrem, hidx, hmin, hmem⟩ | ⟨hno, hrem⟩
  · refine ⟨some c, b', hrem, .of_mem h hc (fun d hd => ⟨fun hdh => ?_, fun hdc => hdc ▸ hhi⟩) hidx hmin hmem⟩
    by_contra hdc
    have hap := h.spaced.apart d hd c hc hdc
    have := d.base_lt_hi
    have := c.base_lt_hi
    unfold Apart at hap
    omega
  · exact ⟨none, b, hrem, .of_not h (hno hlt)⟩

/-! ### Merging with a neighbour -/

/-- `m` is `r` with the neighbours that `b` had and `b'` lacks. -/
structure Absorbed (b b' : SizeBucketedChunkMap) (r m : Chunk) : Prop where
  good : b'.Good
  min : b'.minChunkSize = b.minChunkSize
  sub : ∀ d ∈ b'.chunks, d ∈ b.chunks
  aligned : ChunkMap.Aligned b.minChunkSize m
  apart : ∀ d ∈ b'.chunks, d.Apart m
  has : ∀ x, b'.chunks.Has x ∨ m.Has x ↔ b.chunks.Has x ∨ r.Has x

theorem Absorbed.trans {b₁ b₂ b₃} {r₁ r₂ r₃} (h : Absorbed b₁ b₂ r₁ r₂)
    (h' : Absorbed b₂ b₃ r₂ r₃) : Absorbed b₁ b₃ r₁ r₃ where
  good := h'.good
  min := h'.min.trans h.min
  sub := fun d hd => h.sub d (h'.sub d hd)
  aligned := h.min ▸ h'.aligned
  apart := h'.apart
  has := fun x => (h'.has x).trans (h.has x)

/-- The two ways a neighbour lookup can end: nothing, or a chunk that then lies at one end of `m`. -/
def Joined (r m : Chunk) : Option Chunk → Prop
  | none => m = r
  | some c => (c.hi = r.base ∧ m.base = c.base ∧ m.hi = r.hi) ∨ (c.base = r.hi ∧ m.base = r.base ∧ m.hi = c.hi)

theorem Dropped.merge {o} (h : Dropped b b' p o)
    (hb : b.Good) (hp : ∀ c, p c → c.hi = r.base ∨ c.base = r.hi) (hr : ChunkMap.Aligned b.minChunkSize r)
    (hap : ∀ d ∈ b.chunks, d.Apart r) (hsum : ∀ d ∈ b.chunks, r.size.get + d.size.get < 2 ^ 32) :
    ∃ m, VMAllocator.mergeWith r o = .ok m ∧ Absorbed b b' r m ∧ Joined r m o := by
  have hsub : ∀ d ∈ b'.chunks, d ∈ b.chunks := fun d hd => ((h.chunks d).mp hd).1
  cases o with
  | none =>
    have hall : ∀ d, d ∈ b'.chunks ↔ d ∈ b.chunks := fun d => by
      rw [h.chunks]
      exact and_iff_left_of_imp fun hd hpd => nomatch (h.found d).mpr ⟨hd, hpd⟩
    refine ⟨r, rfl, ⟨h.good, h.min, hsub, hr, fun d hd => hap d (hsub d hd), fun x => ?_⟩, rfl⟩
    simp [ChunkMap.Has, hall]
  | some c =>
    obtain ⟨hc, hpc⟩ := (h.found c).mp rfl
    have hadj := hp c hpc
    have hcl := c.base_lt_hi
    have hrl := r.base_lt_hi
    obtain ⟨m, hm, hmb, hmh⟩ := merge_ok hr.fits (hb.spaced.fits c hc) (hsum c hc)
      (hadj.elim (fun he => .inr he) (fun he => .inl he.symm))
    have hen : (c.hi = r.base ∧ m.base = c.base ∧ m.hi = r.hi) ∨ (c.base = r.hi ∧ m.base = r.base ∧ m.hi = c.hi) := by
      omega
    have hall : ∀ d, d ∈ b.chunks ↔ d ∈ b'.chunks ∨ d = c := fun d => by
      rw [h.chunks]
      constructor
      · intro hd
        by_cases hpd : p d
        · exact .inr (Option.some_inj.mp ((h.found d).mpr ⟨hd, hpd⟩)).symm
        · exact .inl ⟨hd, hpd⟩
      · rintro (hd | rfl)
        · exact hd.1
        · exact hc
    refine ⟨m, hm, ⟨h.good, h.min, hsub, ?_, fun d hd => ?_, fun x => ?_⟩, hen⟩
    · have hca := hb.spaced.aligned hc
      rcases hen with ⟨-, hb', hh'⟩ | ⟨-, hb', hh'⟩
      · exact ⟨hh' ▸ hr.fits, hb' ▸ hca.dvd_base, hh' ▸ hr.dvd_hi⟩
      · exact ⟨hh' ▸ hca.fits, hb' ▸ hr.dvd_base, hh' ▸ hca.dvd_hi⟩
    · -- A chunk on neither side of the border between `r` and `c` cannot fit there either.
      have hdc : d ≠ c := fun heq => ((h.chunks d).mp hd).2 (heq ▸ hpc)
      have hapc := hb.spaced.apart d (hsub d hd) c hc hdc
      have hapr := hap d (hsub d hd)
      have hdl := d.base_lt_hi
      unfold Apart at hapc hapr ⊢
      omega
    · have hmx : m.Has x ↔ r.Has x ∨ c.Has x := by
        unfold Has
        omega
      have hbx : b.chunks.Has x ↔ b'.chunks.Has x ∨ c.Has x := by
        simp [ChunkMap.Has, hall]
      rw [hmx, hbx, or_assoc, or_comm (a := r.Has x)]

theorem Absorbed.insert_ok {m} (h : Absorbed b b' r m) (hlt : m.size.get < 2 ^ 32) :
    ∃ b'', b'.insert m = .ok b'' ∧ b''.Good ∧ b''.minChunkSize = b.minChunkSize ∧
      (∀ d, d ∈ b''.chunks ↔ d = m ∨ d ∈ b'.chunks) ∧ ∀ x, b''.chunks.Has x ↔ b.chunks.Has x ∨ r.Has x := by
  obtain ⟨b'', hins, hgd, hmin, hmem⟩ := h.good.insert_ok (h.min ▸ h.aligned) hlt h.apart
  refine ⟨b'', hins, hgd, hmin.trans h.min, hmem, fun x => ?_⟩
  rw [← h.has x]
  simp only [ChunkMap.Has, hmem, or_and_right, exists_or, exists_eq_left]
  exact or_comm

end SizeBucketedChunkMap
end TouchHLE.Mem
