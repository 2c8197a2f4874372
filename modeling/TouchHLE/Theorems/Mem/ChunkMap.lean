import TouchHLE.Theorems.Mem.Chunk

/-! Chunk maps as sets of chunks. Each operation is described by which chunks the map holds afterwards;
    `Spaced` is what the range operations need of a map and keep. -/

namespace TouchHLE.Mem
open Lib List Chunk
variable {m n : ChunkMap} {c d r : Chunk} {b k : Nat}

namespace ChunkMap

instance : Membership Chunk ChunkMap := ⟨fun m c => (c.base, c.size) ∈ m.chunks⟩

theorem mem_def : c ∈ m ↔ (c.base, c.size) ∈ m.chunks := Iff.rfl

theorem eq_of_base (hc : c ∈ m) (hd : d ∈ m) (h : c.base = d.base) : c = d := by
  have := OrdMap.eq_of_key hc hd h
  cases c
  cases this
  rfl

theorem ext_mem (h : ∀ c, c ∈ m ↔ c ∈ n) : m = n := by
  have : m.chunks = n.chunks := OrdMap.ext_mem fun e => h ⟨e.1, e.2⟩
  cases m
  cases this
  rfl

@[simp] theorem not_mem_empty (c : Chunk) : c ∉ empty := OrdMap.not_mem_empty _

def Has (m : ChunkMap) (x : Nat) : Prop := ∃ c ∈ m, c.Has x

theorem insert_ok (h : ∀ d ∈ m, d.base ≠ c.base) : ∃ n, m.insert c = .ok n ∧ ∀ d, d ∈ n ↔ d = c ∨ d ∈ m := by
  have hno : m.chunks.lookup c.base = none := OrdMap.lookup_eq_none.mpr fun v hv => h ⟨c.base, v⟩ hv rfl
  refine ⟨_, by rw [insert, hno]; rfl, fun d => ?_⟩
  simp only [mem_def, OrdMap.mem_insert]
  constructor
  · rintro (heq | ⟨hd, -⟩)
    · left
      cases c
      cases heq
      rfl
    · exact .inr hd
  · rintro (rfl | hd)
    · exact .inl rfl
    · exact .inr ⟨hd, h d hd⟩

theorem insert_eq_ok (h : m.insert c = .ok n) : (∀ d ∈ m, d.base ≠ c.base) ∧ ∀ d, d ∈ n ↔ d = c ∨ d ∈ m := by
  have hfr : ∀ d ∈ m, d.base ≠ c.base := by
    intro d hd heq
    have hso : m.chunks.lookup c.base = some d.size := OrdMap.lookup_eq_some.mpr (heq ▸ hd)
    rw [insert, hso] at h
    cases h
  obtain ⟨n', hn', hmem⟩ := insert_ok hfr
  rw [hn'] at h
  cases h
  exact ⟨hfr, hmem⟩

theorem removeWithBase_fst : (m.removeWithBase b).1 = some c ↔ c ∈ m ∧ c.base = b := by
  simp only [removeWithBase, Option.map_eq_some_iff, OrdMap.lookup_eq_some]
  constructor
  · rintro ⟨v, hv, rfl⟩
    exact ⟨hv, rfl⟩
  · rintro ⟨hc, rfl⟩
    exact ⟨c.size, hc, rfl⟩

theorem mem_removeWithBase_snd : d ∈ (m.removeWithBase b).2 ↔ d ∈ m ∧ d.base ≠ b := by
  simp [removeWithBase, mem_def]

theorem removeWithBase_of_mem (hc : c ∈ m) : ∃ n, m.removeWithBase c.base = (some c, n) ∧ ∀ d, d ∈ n ↔ d ∈ m ∧ d ≠ c := by
  refine ⟨(m.removeWithBase c.base).2, Prod.ext (removeWithBase_fst.mpr ⟨hc, rfl⟩) rfl, fun d => ?_⟩
  rw [mem_removeWithBase_snd]
  refine and_congr_right fun hd => not_congr ⟨fun h => eq_of_base hd hc h, fun h => h ▸ rfl⟩

theorem removeWithBase_of_not (h : ∀ d ∈ m, d.base ≠ b) : m.removeWithBase b = (none, m) := by
  have hno : (m.removeWithBase b).1 = none := by
    rw [Option.eq_none_iff_forall_ne_some]
    intro c hc
    obtain ⟨hc, hb⟩ := removeWithBase_fst.mp hc
    exact h c hc hb
  refine Prod.ext hno (ext_mem fun d => ?_)
  rw [mem_removeWithBase_snd]
  exact ⟨And.left, fun hd => ⟨hd, h d hd⟩⟩

theorem getSizeWithBase_eq_some {n} :
    m.getSizeWithBase b = some n ↔ (⟨b, n⟩ : Chunk) ∈ m := OrdMap.lookup_eq_some

theorem mem_intoIter : c ∈ m.intoIter ↔ c ∈ m := by
  simp only [intoIter, mem_map, mem_def, OrdMap.mem_def, Prod.exists]
  constructor
  · rintro ⟨b, n, he, rfl⟩
    exact he
  · intro h
    exact ⟨c.base, c.size, h, rfl⟩

theorem intoIter_nodup (m : ChunkMap) : m.intoIter.Nodup := by
  refine .of_map base ?_
  rw [intoIter, map_map]
  exact m.chunks.keys_nodup

/-! ### Maps whose chunks are spaced -/

/-- Chunks in the 32-bit space that are pairwise apart and start and end at multiples of `k`. -/
structure Spaced (k : Nat) (m : ChunkMap) : Prop where
  fits : ∀ c ∈ m, c.hi ≤ 2 ^ 32
  apart : ∀ c ∈ m, ∀ d ∈ m, c ≠ d → c.Apart d
  dvd_base : ∀ c ∈ m, k ∣ c.base
  dvd_hi : ∀ c ∈ m, k ∣ c.hi

structure Aligned (k : Nat) (c : Chunk) : Prop where
  fits : c.hi ≤ 2 ^ 32
  dvd_base : k ∣ c.base
  dvd_hi : k ∣ c.hi

namespace Spaced

theorem aligned (h : m.Spaced k) (hc : c ∈ m) : Aligned k c := ⟨h.fits c hc, h.dvd_base c hc, h.dvd_hi c hc⟩

theorem empty : ChunkMap.empty.Spaced k := by
  constructor <;> intro c hc <;> exact absurd hc (not_mem_empty c)

theorem mono (h : m.Spaced k) (hsub : ∀ c ∈ n, c ∈ m) : n.Spaced k where
  fits := fun c hc => h.fits c (hsub c hc)
  apart := fun c hc d hd => h.apart c (hsub c hc) d (hsub d hd)
  dvd_base := fun c hc => h.dvd_base c (hsub c hc)
  dvd_hi := fun c hc => h.dvd_hi c (hsub c hc)

theorem add (h : m.Spaced k) (hc : Aligned k c) (hap : ∀ d ∈ m, d.Apart c) (hn : ∀ d, d ∈ n ↔ d = c ∨ d ∈ m) :
    n.Spaced k where
  fits := fun d hd => by
    rcases (hn d).mp hd with rfl | hd
    · exact hc.fits
    · exact h.fits d hd
  apart := fun d hd e he hne => by
    rcases (hn d).mp hd with rfl | hd <;> rcases (hn e).mp he with rfl | he
    · exact absurd rfl hne
    · exact (hap e he).symm
    · exact hap d hd
    · exact h.apart d hd e he hne
  dvd_base := fun d hd => by
    rcases (hn d).mp hd with rfl | hd
    · exact hc.dvd_base
    · exact h.dvd_base d hd
  dvd_hi := fun d hd => by
    rcases (hn d).mp hd with rfl | hd
    · exact hc.dvd_hi
    · exact h.dvd_hi d hd

theorem eq_of_has (h : m.Spaced k) (hc : c ∈ m) (hd : d ∈ m) {x : Nat} (hcx : c.Has x) (hdx : d.Has x) : c = d := by
  by_contra hne
  exact apart_iff.mp (h.apart c hc d hd hne) x hcx hdx

end Spaced

theorem Aligned.le_size (h : Aligned k c) : k ≤ c.size.get := by
  rw [c.size_eq]
  exact Nat.le_of_dvd (Nat.sub_pos_of_lt c.base_lt_hi) (Nat.dvd_sub h.dvd_hi h.dvd_base)

theorem removeWithEnd_spec (h : m.Spaced k) (e : Nat) :
    (∃ c ∈ m, c.hi = e ∧ e < 2 ^ 32 ∧ m.removeWithEnd e = .ok (some c, (m.removeWithBase c.base).2)) ∨
      ((e < 2 ^ 32 → ∀ c ∈ m, c.hi ≠ e) ∧ m.removeWithEnd e = .ok (none, m)) := by
  unfold removeWithEnd
  split
  · rename_i hls
    refine .inr ⟨fun _ c hc heq => ?_, rfl⟩
    have := OrdMap.lastWhere_eq_none hls _ hc
    have := c.base_lt_hi
    simp only [decide_eq_false_iff_not] at *
    omega
  · rename_i b n hls
    obtain ⟨hmem, hlt, hmax⟩ := OrdMap.lastWhere_eq_some hls
    dsimp only
    generalize hbn : (⟨b, n⟩ : Chunk) = c
    have hc : c ∈ m := hbn ▸ hmem
    obtain rfl : c.base = b := by rw [← hbn]
    have hfit := h.fits c hc
    have hlo := c.base_lt_hi
    simp only [decide_eq_true_eq] at hlt
    have hwp := wrap_lastByte_succ hfit
    split
    · rename_i hne
      refine .inr ⟨fun he d hd heq => ?_, rfl⟩
      -- The chunk ending at `e` is the last below `e`: one after it would overlap it.
      have hdl := d.base_lt_hi
      have hle := hmax (d.base, d.size) hd (by simp only [decide_eq_true_eq]; omega)
      obtain rfl : d = c := by
        by_contra hdc
        have hap := h.apart d hd c hc hdc
        unfold Apart at hap
        omega
      apply hne
      rw [hwp, if_neg (by omega), heq]
    · rename_i heq
      rw [hwp] at heq
      obtain ⟨n', hrem, -⟩ := removeWithBase_of_mem hc
      have hhi : c.hi = e ∧ e < 2 ^ 32 := by
        split at heq <;> omega
      exact .inl ⟨c, hc, hhi.1, hhi.2, by rw [hrem]⟩

/-! ### Cutting a range out of a map -/

/-- No chunk that reaches the top of the 32-bit space begins below `r`. Such a chunk is missed by
    `overlapping_chunks`, whose comparison with `base + size` wraps to zero. -/
def TopSafe (m : ChunkMap) (r : Chunk) : Prop := ∀ c ∈ m, c.hi = 2 ^ 32 → r.base ≤ c.base

theorem overlappingChunks_ok (h : m.Spaced k) (hr : r.hi ≤ 2 ^ 32)
    (htop : m.TopSafe r) :
    ∃ l, m.overlappingChunks r = .ok l ∧ (l.map (·.base)).Nodup ∧ ∀ c, c ∈ l ↔ c ∈ m ∧ ¬c.Apart r := by
  have hrl := r.base_lt_hi
  -- `start` is at most the base of `r`, and separates the chunks that end at or before it from the rest.
  suffices hsr : ∃ start ≤ r.base, (∀ c ∈ m, c.base < start → c.hi ≤ r.base) ∧ (∀ c ∈ m, start ≤ c.base → r.base < c.hi) ∧
      m.overlappingChunks r =
        if start > r.lastByte then .error .rangeStart
        else .ok ((m.chunks.range start r.lastByte).map fun e => ⟨e.1, e.2⟩) by
    obtain ⟨start, hle, hbe, haf, heq⟩ := hsr
    rw [lastByte_eq hr] at heq
    refine ⟨_, by rw [heq, if_neg (by omega)], ?_, fun c => ?_⟩
    · rw [map_map]
      exact OrdMap.range_nodup _ _ _
    · have hcl := c.base_lt_hi
      simp only [mem_map, Prod.exists, OrdMap.mem_range]
      constructor
      · rintro ⟨b, n, ⟨hmem, hlo, hhi⟩, rfl⟩
        have hmem' : (⟨b, n⟩ : Chunk) ∈ m := hmem
        have := haf _ hmem' hlo
        refine ⟨hmem', ?_⟩
        unfold Apart
        simp only at *
        omega
      · rintro ⟨hc, hap⟩
        unfold Apart at hap
        have := hbe c hc
        exact ⟨c.base, c.size, ⟨hc, by omega, by omega⟩, rfl⟩
  unfold overlappingChunks
  cases hls : m.chunks.lastWhere (· ≤ r.base) with
  | none =>
    have hno := OrdMap.lastWhere_eq_none hls
    simp only [decide_eq_false_iff_not] at hno
    refine ⟨r.base, Nat.le_refl _, fun c hc hlt => ?_, fun c hc _ => ?_, rfl⟩
    · have := hno _ hc
      omega
    · have := hno _ hc
      have := c.base_lt_hi
      omega
  | some e =>
    obtain ⟨hmem, hle, hmax⟩ := OrdMap.lastWhere_eq_some hls
    obtain ⟨p, rfl⟩ : ∃ p : Chunk, e = (p.base, p.size) := ⟨⟨e.1, e.2⟩, rfl⟩
    have hp : p ∈ m := hmem
    have hfit := h.fits p hp
    have hpl := p.base_lt_hi
    simp only [decide_eq_true_eq] at hle hmax
    -- Chunks before the last one below `r` end before it.
    have hprv : ∀ c ∈ m, c.base < p.base → c.hi ≤ p.base := fun c hc hlt => by
      have hap := h.apart c hc p hp (fun heq => by rw [heq] at hlt; omega)
      unfold Apart at hap
      omega
    have hnx : ∀ c ∈ m, c.base ≤ r.base → c.base ≤ p.base := fun c hc hle => hmax (c.base, c.size) hc hle
    simp only
    by_cases hovr : r.base < p.hi
    · have hcd : r.base < wrap (p.base + p.size.get) ∨ p.base = r.base := by
        by_cases htpp : p.hi = 2 ^ 32
        · have := htop p hp htpp
          omega
        · rw [← p.hi_eq, wrap_of_lt (by omega)]
          exact .inl hovr
      refine ⟨p.base, hle, fun c hc hlt => ?_, fun c hc hge => ?_, ?_⟩
      · have := hprv c hc hlt
        omega
      · have := c.base_lt_hi
        rcases Nat.eq_or_lt_of_le hge with heq | hlt
        · rw [← eq_of_base hp hc heq]
          exact hovr
        · have := hnx c hc
          omega
      · rcases hcd with hcd | hcd
        · rw [if_pos hcd]
        · rw [hcd, ite_self]
    · have hcd : ¬r.base < wrap (p.base + p.size.get) := by
        rw [← p.hi_eq, wrap_of_lt (by have := r.base_lt_hi; omega)]
        exact hovr
      refine ⟨r.base, Nat.le_refl _, fun c hc hlt => ?_, fun c hc hge => ?_, by rw [if_neg hcd]⟩
      · rcases Nat.lt_or_ge c.base p.base with hlt' | hge'
        · have := hprv c hc hlt'
          omega
        · have := hnx c hc (by omega)
          rw [← eq_of_base hp hc (by omega)]
          omega
      · have := c.base_lt_hi
        omega

/-- What the map keeps of its chunks when `r` is cut out. -/
theorem Spaced.apart_pieces {e} (h : m.Spaced k) (hr : r.hi ≤ 2 ^ 32)
    (hc : c ∈ m) (hd : d ∈ m) (hne : c ≠ d) (he : e ∈ c.pieces r) : e.Apart d := by
  obtain ⟨hlo, hhi, -⟩ := pieces_within (h.fits c hc) hr he
  have hap := h.apart c hc d hd hne
  unfold Apart at hap ⊢
  omega

section
variable (h : m.Spaced k) (hc : c ∈ m) (hr : Aligned k r)
include h hc hr

theorem Spaced.replace (hn : ∀ d, d ∈ n ↔ (d ∈ m ∧ d ≠ c) ∨ d ∈ c.pieces r) : n.Spaced k where
  fits := fun d hd => by
    rcases (hn d).mp hd with ⟨hd, -⟩ | hd
    · exact h.fits d hd
    · exact Nat.le_trans (pieces_within (h.fits c hc) hr.fits hd).2.1 (h.fits c hc)
  apart := fun d hd e he hne => by
    rcases (hn d).mp hd with ⟨hd, hdc⟩ | hd <;> rcases (hn e).mp he with ⟨he, hec⟩ | he
    · exact h.apart d hd e he hne
    · exact (h.apart_pieces hr.fits hc hd (Ne.symm hdc) he).symm
    · exact h.apart_pieces hr.fits hc he (Ne.symm hec) hd
    · exact pieces_apart (h.fits c hc) hr.fits hd he hne
  dvd_base := fun d hd => by
    rcases (hn d).mp hd with ⟨hd, -⟩ | hd
    · exact h.dvd_base d hd
    · exact (pieces_dvd (h.fits c hc) hr.fits hd (h.dvd_base c hc) (h.dvd_hi c hc) hr.dvd_base hr.dvd_hi).1
  dvd_hi := fun d hd => by
    rcases (hn d).mp hd with ⟨hd, -⟩ | hd
    · exact h.dvd_hi d hd
    · exact (pieces_dvd (h.fits c hc) hr.fits hd (h.dvd_base c hc) (h.dvd_hi c hc) hr.dvd_base hr.dvd_hi).2

theorem insert?_pieces (hn : ∀ d, d ∈ n ↔ d ∈ m ∧ d ≠ c) :
    ∃ n₁ n₂, n.insert? (c.difference r).1 = .ok n₁ ∧ n₁.insert? (c.difference r).2 = .ok n₂ ∧
      ∀ d, d ∈ n₂ ↔ (d ∈ m ∧ d ≠ c) ∨ d ∈ c.pieces r := by
  have hpcs : ∀ e, e ∈ c.pieces r ↔ (c.difference r).1 = some e ∨ (c.difference r).2 = some e := fun e => by
    simp [pieces]
  have hfr : ∀ e ∈ c.pieces r, ∀ d ∈ n, d.base ≠ e.base := fun e he d hd => by
    obtain ⟨hd, hdc⟩ := (hn d).mp hd
    exact (h.apart_pieces hr.fits hc hd (Ne.symm hdc) he).symm.base_ne
  have hfs : ∃ n₁, n.insert? (c.difference r).1 = .ok n₁ ∧ ∀ d, d ∈ n₁ ↔ (c.difference r).1 = some d ∨ d ∈ n := by
    cases h₁ : (c.difference r).1 with
    | none => exact ⟨n, rfl, fun d => by simp⟩
    | some e =>
      obtain ⟨n₁, hins, hmem⟩ := insert_ok (hfr e ((hpcs e).mpr (.inl h₁)))
      exact ⟨n₁, hins, fun d => by rw [hmem, Option.some_inj, eq_comm]⟩
  obtain ⟨n₁, hins₁, hmem₁⟩ := hfs
  have hsec : ∃ n₂, n₁.insert? (c.difference r).2 = .ok n₂ ∧ ∀ d, d ∈ n₂ ↔ (c.difference r).2 = some d ∨ d ∈ n₁ := by
    cases h₂ : (c.difference r).2 with
    | none => exact ⟨n₁, rfl, fun d => by simp⟩
    | some e =>
      have he := (hpcs e).mpr (.inr h₂)
      have hfr₁ : ∀ d ∈ n₁, d.base ≠ e.base := fun d hd => by
        rcases (hmem₁ d).mp hd with h₁ | hd
        · have hlt := difference_lt (h.fits c hc) hr.fits h₁ h₂
          have := d.base_lt_hi
          omega
        · exact hfr e he d hd
      obtain ⟨n₂, hins, hmem⟩ := insert_ok hfr₁
      exact ⟨n₂, hins, fun d => by rw [hmem, Option.some_inj, eq_comm]⟩
  obtain ⟨n₂, hins₂, hmem₂⟩ := hsec
  refine ⟨n₁, n₂, hins₁, hins₂, fun d => ?_⟩
  rw [hmem₂, hmem₁, hn, hpcs]
  constructor
  · rintro (h2 | h1 | hd)
    · exact .inr (.inr h2)
    · exact .inr (.inl h1)
    · exact .inl hd
  · rintro (hd | h1 | h2)
    · exact .inr (.inr hd)
    · exact .inr (.inl h1)
    · exact .inl h2

theorem removeFrom_ok :
    ∃ n, m.removeFrom r c.base = .ok n ∧ n.Spaced k ∧ ∀ d, d ∈ n ↔ (d ∈ m ∧ d ≠ c) ∨ d ∈ c.pieces r := by
  obtain ⟨rest, hrem, hrs⟩ := removeWithBase_of_mem hc
  obtain ⟨n₁, n₂, h₁, h₂, hmem⟩ := insert?_pieces h hc hr hrs
  exact ⟨n₂, by simp [removeFrom, hrem, h₁, h₂], h.replace hc hr hmem, hmem⟩

end

theorem mem_pieces_cut {l : List Chunk} (h : m.Spaced k) (hr : r.hi ≤ 2 ^ 32)
    (hl : ∀ c, c ∈ l ↔ c ∈ m ∧ ¬c.Apart r) :
    (d ∈ m ∧ d ∉ l) ∨ (∃ c ∈ l, d ∈ c.pieces r) ↔ ∃ c ∈ m, d ∈ c.pieces r := by
  constructor
  · rintro (⟨hd, hnot⟩ | ⟨c, hc, hd⟩)
    · have hap : d.Apart r := by
        by_contra hap
        exact hnot ((hl d).mpr ⟨hd, hap⟩)
      exact ⟨d, hd, (mem_pieces (h.fits d hd) hr).mpr (.inl ⟨hap, rfl⟩)⟩
    · exact ⟨c, ((hl c).mp hc).1, hd⟩
  · rintro ⟨c, hc, hd⟩
    by_cases hap : c.Apart r
    · rcases (mem_pieces (h.fits c hc) hr).mp hd with ⟨-, rfl⟩ | ⟨hnot, -⟩
      · exact .inl ⟨hc, fun hin => ((hl d).mp hin).2 hap⟩
      · exact absurd hap hnot
    · exact .inr ⟨c, (hl c).mpr ⟨hc, hap⟩, hd⟩

theorem Spaced.not_mem_pieces {b} (h : m.Spaced k) (hr : r.hi ≤ 2 ^ 32)
    (hb : b ∈ m) (hc : c ∈ m) (hne : b ≠ c) : c ∉ b.pieces r :=
  fun hmem => c.not_apart_self (h.apart_pieces hr hb hc hne hmem)

/-- `remove_range` leaves every chunk what the range does not take of it. -/
theorem removeRange_ok (h : m.Spaced k) (hr : Aligned k r) (htop : m.TopSafe r) :
    ∃ n, m.removeRange r = .ok n ∧ n.Spaced k ∧ ∀ d, d ∈ n ↔ ∃ c ∈ m, d ∈ c.pieces r := by
  obtain ⟨l, hl, hnd, hmem⟩ := overlappingChunks_ok h hr.fits htop
  obtain ⟨n, hn, hsp, hmmn⟩ := foldlM_replace (fun c (s : ChunkMap) => c ∈ s) (Spaced k)
    (fun c d => d ∈ c.pieces r) (fun s c => removeFrom r s c.base)
    (fun _ _ hs hb => removeFrom_ok hs hb hr) (fun _ _ _ hs hb hc hne => hs.not_mem_pieces hr.fits hb hc hne)
    l m hnd.of_map h fun c hc => ((hmem c).mp hc).1
  refine ⟨n, ?_, hsp, fun d => (hmmn d).trans (mem_pieces_cut h hr.fits hmem)⟩
  rw [removeRange, hl, ok_bind, foldlM_map]
  exact hn

/-- A part of one chunk is cut out of the map by cutting it out of that chunk. -/
theorem mem_replace_iff {a} (h : m.Spaced k) (hc : c ∈ m)
    (hwth : c.base ≤ a.base ∧ a.hi ≤ c.hi) (hfit : a.hi ≤ 2 ^ 32) :
    (d ∈ m ∧ d ≠ c) ∨ d ∈ c.pieces a ↔ ∃ c ∈ m, d ∈ c.pieces a := by
  have hone : ∀ e, e ∈ [c] ↔ e ∈ m ∧ ¬e.Apart a := fun e => by
    rw [mem_singleton]
    have hal := a.base_lt_hi
    constructor
    · rintro rfl
      refine ⟨hc, ?_⟩
      unfold Apart
      omega
    · rintro ⟨he, hap⟩
      by_contra hne
      have := h.apart e he c hc hne
      unfold Apart at hap this
      omega
  rw [← mem_pieces_cut h hfit hone]
  simp

theorem mem_pieces_self_iff (h : m.Spaced k) (hc : c ∈ m) : (∃ e ∈ m, d ∈ e.pieces c) ↔ d ∈ m ∧ d ≠ c := by
  have hfit := h.fits c hc
  rw [← mem_replace_iff h hc ⟨Nat.le_refl _, Nat.le_refl _⟩ hfit]
  refine or_iff_left fun hd => ?_
  obtain ⟨hlo, hhi, hap⟩ := pieces_within hfit hfit hd
  have := d.base_lt_hi
  unfold Apart at hap
  omega

theorem has_of_pieces (h : m.Spaced k) (hr : r.hi ≤ 2 ^ 32)
    (hn : ∀ d, d ∈ n ↔ ∃ c ∈ m, d ∈ c.pieces r) {x : Nat} : n.Has x ↔ m.Has x ∧ ¬r.Has x := by
  constructor
  · rintro ⟨d, hd, hx⟩
    obtain ⟨c, hc, hd⟩ := (hn d).mp hd
    have := (exists_piece_has (h.fits c hc) hr).mp ⟨d, hd, hx⟩
    exact ⟨⟨c, hc, this.1⟩, this.2⟩
  · rintro ⟨⟨c, hc, hx⟩, hrx⟩
    obtain ⟨d, hd, hdx⟩ := (exists_piece_has (h.fits c hc) hr).mpr ⟨hx, hrx⟩
    exact ⟨d, (hn d).mpr ⟨c, hc, hd⟩, hdx⟩

end ChunkMap
end TouchHLE.Mem
