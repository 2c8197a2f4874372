import TouchHLE.Theorems.Mem.Pages
import TouchHLE.Theorems.Mem.Partition

/-! The allocator of pages. Its used and unused chunks are a partition of the arena it was created with,
    cut at page boundaries, in which no two unused chunks touch. -/

namespace TouchHLE.Mem
open Lib SizeBucketedChunkMap ChunkMap
variable {A : Arena} {c : Chunk} {s : VMAllocator} {size address : Nat}

structure Arena where
  base : Nat
  len : Nat
  len_pos : 0 < len
  len_lt : len < 2 ^ 32
  fits : base + len ≤ 2 ^ 32
  dvd_base : pageSize ∣ base
  dvd_len : pageSize ∣ len

namespace Arena

def Has (A : Arena) (x : Nat) : Prop := A.base ≤ x ∧ x < A.base + A.len

def Holds (A : Arena) (c : Chunk) : Prop := A.base ≤ c.base ∧ c.hi ≤ A.base + A.len

instance (A : Arena) (c : Chunk) : Decidable (A.Holds c) := inferInstanceAs (Decidable (_ ∧ _))

theorem holds_of_forall (h : ∀ x, c.Has x → A.Has x) : A.Holds c := by
  have hlt := c.base_lt_hi
  have h₁ := h c.base ⟨Nat.le_refl _, hlt⟩
  have h₂ := h (c.hi - 1) ⟨by omega, by omega⟩
  unfold Has at h₁ h₂
  exact ⟨h₁.1, by omega⟩

theorem Holds.has (h : A.Holds c) {x : Nat} (hx : c.Has x) : A.Has x := ⟨Nat.le_trans h.1 hx.1, Nat.lt_of_lt_of_le hx.2 h.2⟩

theorem Holds.size_lt (h : A.Holds c) : c.size.get < 2 ^ 32 := by
  have := c.hi_eq
  have := A.len_lt
  unfold Holds at h
  omega

end Arena

namespace VMAllocator

/-- The used and the unused chunks partition the arena at page boundaries, and unused chunks do not touch. -/
structure Inv (A : Arena) (s : VMAllocator) : Prop extends
    Partition pageSize A.Has s.usedChunks s.unusedChunks where
  coalesced : s.unusedChunks.chunks.Coalesced

namespace Inv

theorem holds_used (h : Inv A s) (hc : c ∈ s.usedChunks) : A.Holds c := Arena.holds_of_forall fun _ hx => h.of_used hc hx

theorem holds_unused (h : Inv A s) (hc : c ∈ s.unusedChunks.chunks) : A.Holds c :=
  Arena.holds_of_forall fun _ hx => h.of_unused hc hx

end Inv

theorem new_ok (A : Arena) : ∃ s, VMAllocator.new A.base A.len = .ok s ∧ Inv A s := by
  obtain ⟨c, hc, hb, hhi⟩ := Chunk.new_ok A.len_pos
  have hag : Aligned pageSize c := ⟨hhi ▸ A.fits, hb ▸ A.dvd_base, by rw [hhi]; exact Nat.dvd_add A.dvd_base A.dvd_len⟩
  have hlt : c.size.get < 2 ^ 32 := (Chunk.new_eq_ok.mp hc).2 ▸ A.len_lt
  obtain ⟨u, hu, hum, hprt⟩ := (Partition.new (by decide) (by decide)).extend hag hlt fun _ _ => id
  refine ⟨⟨.empty, u⟩, by simp [VMAllocator.new, hc, hu], hprt.congr fun x => ?_, ?_⟩
  · rw [false_or, Chunk.Has, Arena.Has, hb, hhi]
  · have hone : ∀ d ∈ u.chunks, d = c := fun d hd => ((hum d).mp hd).resolve_right (not_mem_empty d)
    intro d hd e he
    rw [hone d hd, hone e he]
    exact c.base_lt_hi.ne'

def Taken (s t : VMAllocator) (c a : Chunk) : Prop :=
  Moved pageSize s.usedChunks s.unusedChunks t.usedChunks t.unusedChunks c a

theorem Taken.inv {t} {a} (h : Inv A s) (ht : Taken s t c a) : Inv A t where
  toPartition := Moved.partition h.toPartition ht
  coalesced := h.coalesced.pieces h.spaced (Moved.aligned ht).fits (Moved.unused ht)

theorem size_checked (hdvd : pageSize ∣ size) (hle : pageSize ≤ size) : ¬(size % pageSize ≠ 0 ∨ size < pageSize) := by
  rintro (hne | hlt)
  · exact hne (Nat.mod_eq_zero_of_dvd hdvd)
  · omega

theorem allocateAny_spec (h : Inv A s) (hdvd : pageSize ∣ size) (hle : pageSize ≤ size) (hlt : size < 2 ^ 32) :
    (s.allocateAny size = .ok (.error .noSpace, s) ∧ ∀ c ∈ s.unusedChunks.chunks, c.size.get < size) ∨
      ∃ c a t, s.allocateAny size = .ok (.ok a, t) ∧ a.size.get = size ∧ Taken s t c a := by
  have hcc := size_checked hdvd hle
  rcases h.allocate_spec hdvd hle hlt with ⟨hnn, hsl⟩ | ⟨c, a, u, m, hso, hins, -, hsz, hmo⟩
  · exact .inl ⟨by simp [allocateAny, if_neg hcc, hnn], hsl⟩
  · exact .inr ⟨c, a, ⟨m, u⟩, by simp [allocateAny, if_neg hcc, hso, hins], hsz, hmo⟩

theorem find_contains (h : Inv A s) (address : Nat) :
    (s.unusedChunks.iter.find? (·.contains address) = none ∧ ∀ c ∈ s.unusedChunks.chunks, ¬c.Has address) ∨
      ∃ c ∈ s.unusedChunks.chunks, c.Has address ∧ s.unusedChunks.iter.find? (·.contains address) = some c := by
  cases hfn : s.unusedChunks.iter.find? (·.contains address) with
  | none =>
    refine .inl ⟨rfl, fun c hc hx => ?_⟩
    have := List.find?_eq_none.mp hfn c (h.unused.indexed.mem_iter.mpr hc)
    exact this ((Chunk.contains_iff (h.spaced.fits c hc)).mpr hx)
  | some c =>
    have hc := h.unused.indexed.mem_iter.mp (List.mem_of_find?_eq_some hfn)
    have hx : c.contains address = true := by simpa using List.find?_some hfn
    exact .inr ⟨c, hc, (Chunk.contains_iff (h.spaced.fits c hc)).mp hx, rfl⟩

/-- `allocate_at` fails and changes nothing unless one unused chunk contains both the address and the
    last byte, as the source computes it. -/
theorem allocateAt_err (h : Inv A s) {chunk}
    (had : pageSize ∣ address) (hdvd : pageSize ∣ size) (hle : pageSize ≤ size)
    (hchu : Chunk.new address size = .ok chunk)
    (hno : ∀ c ∈ s.unusedChunks.chunks, ¬(c.Has address ∧ c.Has chunk.lastByte)) :
    ∃ e, s.allocateAt address size = .ok (.error e, s) := by
  have hcc := size_checked hdvd hle
  have ha : ¬address % pageSize ≠ 0 := fun hne => hne (Nat.mod_eq_zero_of_dvd had)
  rcases find_contains h address with ⟨hfn, -⟩ | ⟨c, hc, hx, hfn⟩
  · exact ⟨.addressUnavailable, by simp [allocateAt, if_neg ha, if_neg hcc, hchu, hfn]⟩
  · refine ⟨.noSpace, ?_⟩
    have hfit := h.spaced.fits c hc
    have hls : c.contains chunk.lastByte = false := by
      rw [← Bool.not_eq_true, Chunk.contains_iff hfit]
      exact fun hl => hno c hc ⟨hx, hl⟩
    have htri : c.trisectBy chunk = none := by simp [Chunk.trisectBy, hls]
    simp [allocateAt, if_neg ha, if_neg hcc, hchu, hfn, htri]

theorem allocateAt_ok (h : Inv A s)
    (had : pageSize ∣ address) (hdvd : pageSize ∣ size) (hle : pageSize ≤ size) (hc : c ∈ s.unusedChunks.chunks)
    (hlo : c.base ≤ address) (hhi : address + size ≤ c.hi) :
    ∃ a t, s.allocateAt address size = .ok (.ok a, t) ∧ a.base = address ∧ a.size.get = size ∧ Taken s t c a := by
  have hcc := size_checked hdvd hle
  have hps : 0 < pageSize := by decide
  have ha : ¬address % pageSize ≠ 0 := fun hne => hne (Nat.mod_eq_zero_of_dvd had)
  have hfit := h.spaced.fits c hc
  obtain ⟨a, hnew, hab, hahi⟩ := Chunk.new_ok (n := size) (by omega)
  have has : a.size.get = size := (Chunk.new_eq_ok.mp hnew).2
  have hag : Aligned pageSize a := ⟨by omega, hab ▸ had, by rw [hahi]; exact Nat.dvd_add had hdvd⟩
  have hhas : c.Has address := ⟨hlo, by omega⟩
  have hfn : s.unusedChunks.iter.find? (·.contains address) = some c := by
    rcases find_contains h address with ⟨-, hnn⟩ | ⟨d, hd, hdx, hfn⟩
    · exact absurd hhas (hnn c hc)
    · rw [hfn, h.spaced.eq_of_has hd hc hdx hhas]
  have hls : c.contains a.lastByte = true := by
    rw [Chunk.contains_iff hfit, Chunk.lastByte_eq hag.fits, Chunk.Has]
    omega
  have htri : c.trisectBy a = some (c.difference a) := by
    have : c.contains a.base = true := hab ▸ (Chunk.contains_iff hfit).mpr hhas
    simp [Chunk.trisectBy, this, hls]
  obtain ⟨u, hrem, hudx, humn, hu⟩ := removeWithBase_of_mem h.unused.indexed hc
  obtain ⟨u₁, u₂, h₁, h₂, hgd, hmin₂, hmem₂⟩ := insert?_pieces h.unused hc (h.min ▸ hag) hudx humn hu
  have hap : ∀ d ∈ s.usedChunks, d.Apart a := fun d hd => by
    have hap := h.apart d hd c hc
    unfold Chunk.Apart at hap ⊢
    omega
  obtain ⟨m, hins, hm⟩ := insert_ok fun d hd => (hap d hd).base_ne
  have hwth : c.base ≤ a.base ∧ a.hi ≤ c.hi := by omega
  refine ⟨a, ⟨m, u₂⟩, ?_, hab, has, hc, hwth, hag, hm, hgd, hmin₂.trans h.min,
    fun d => (hmem₂ d).trans (mem_replace_iff h.spaced hc hwth hag.fits)⟩
  simp [allocateAt, if_neg ha, if_neg hcc, hnew, hfn, htri, hrem, h₁, h₂, hins]

def Freed (s t : VMAllocator) (r : Chunk) : Prop :=
  Returned pageSize s.usedChunks s.unusedChunks t.usedChunks t.unusedChunks r

/-- Two chunks of the arena that are apart are together shorter than the 32-bit space. -/
theorem size_add_lt {d} (hc : A.Holds c) (hd : A.Holds d) (hap : d.Apart c) : c.size.get + d.size.get < 2 ^ 32 := by
  have := c.hi_eq
  have := d.hi_eq
  have := A.len_lt
  unfold Arena.Holds at hc hd
  unfold Chunk.Apart at hap
  omega

/-- A chunk and unused chunks of the arena apart from it: what the steps of the merge start from. -/
structure Gap (A : Arena) (b : SizeBucketedChunkMap) (r : Chunk) : Prop where
  good : b.Good
  coalesced : b.chunks.Coalesced
  aligned : Aligned b.minChunkSize r
  holds : A.Holds r
  arena : ∀ d ∈ b.chunks, A.Holds d
  apart : ∀ d ∈ b.chunks, d.Apart r

namespace Gap
variable {b b' : SizeBucketedChunkMap} {r m : Chunk}

theorem of_absorbed (h : Gap A b r) (ha : b.Absorbed b' r m) (hm : A.Holds m) : Gap A b' m where
  good := ha.good
  coalesced := fun c hc d hd => h.coalesced c (ha.sub c hc) d (ha.sub d hd)
  aligned := ha.min ▸ ha.aligned
  holds := hm
  arena := fun d hd => h.arena d (ha.sub d hd)
  apart := ha.apart

/-- The merge with the chunk after `r`: the result ends where no unused chunk begins. -/
theorem mergeAfter (h : Gap A b r) :
    ∃ o b' m, b.removeWithBase (wrap (r.lastByte + 1)) = .ok (o, b') ∧ mergeWith r o = .ok m ∧
      b.Absorbed b' r m ∧ Gap A b' m ∧ m.base = r.base ∧ ∀ d ∈ b'.chunks, m.hi ≠ d.base := by
  obtain ⟨o, b', hrem, hdr⟩ := removeAfter_spec h.good h.aligned.fits fun htop d hd hzr => by
    have hd := h.arena d hd
    have hr := h.holds
    have := A.len_lt
    unfold Arena.Holds at hd hr
    omega
  obtain ⟨m, hm, habs, hjoi⟩ := hdr.merge h.good (fun c hc => .inr hc) h.aligned h.apart
    fun d hd => size_add_lt h.holds (h.arena d hd) (h.apart d hd)
  have hrl := r.base_lt_hi
  cases o with
  | none =>
    obtain rfl : m = r := hjoi
    exact ⟨none, b', m, hrem, hm, habs, h.of_absorbed habs h.holds, rfl, fun d hd heq => ((hdr.chunks d).mp hd).2 heq.symm⟩
  | some c =>
    obtain ⟨hc, hcb⟩ := (hdr.found c).mp rfl
    have hcl := c.base_lt_hi
    have hen : m.base = r.base ∧ m.hi = c.hi := by
      rcases hjoi with hj | hj <;> omega
    have hmA : A.Holds m := ⟨hen.1 ▸ h.holds.1, hen.2 ▸ (h.arena c hc).2⟩
    exact ⟨some c, b', m, hrem, hm, habs, h.of_absorbed habs hmA, hen.1,
      fun d hd => hen.2 ▸ h.coalesced c hc d (habs.sub d hd)⟩

/-- The merge with the chunk before `r`: the result begins where no unused chunk ends. -/
theorem mergeBefore (h : Gap A b r) : ∃ o b' m, b.removeWithEnd r.base = .ok (o, b') ∧ mergeWith r o = .ok m ∧
      b.Absorbed b' r m ∧ Gap A b' m ∧ m.hi = r.hi ∧ ∀ d ∈ b'.chunks, d.hi ≠ m.base := by
  obtain ⟨o, b', hrem, hdr⟩ := removeBefore_spec h.good h.aligned.fits
  obtain ⟨m, hm, habs, hjoi⟩ := hdr.merge h.good (fun c hc => .inl hc) h.aligned h.apart
    fun d hd => size_add_lt h.holds (h.arena d hd) (h.apart d hd)
  have hrl := r.base_lt_hi
  cases o with
  | none =>
    obtain rfl : m = r := hjoi
    exact ⟨none, b', m, hrem, hm, habs, h.of_absorbed habs h.holds, rfl, fun d hd => ((hdr.chunks d).mp hd).2⟩
  | some c =>
    obtain ⟨hc, hch⟩ := (hdr.found c).mp rfl
    have hcl := c.base_lt_hi
    have hen : m.base = c.base ∧ m.hi = r.hi := by
      rcases hjoi with hj | hj <;> omega
    have hmA : A.Holds m := ⟨hen.1 ▸ (h.arena c hc).1, hen.2 ▸ h.holds.2⟩
    exact ⟨some c, b', m, hrem, hm, habs, h.of_absorbed habs hmA, hen.2,
      fun d hd => hen.1 ▸ h.coalesced d (habs.sub d hd) c hc⟩

end Gap

/-- A range of the arena is made unused and merged with its unused neighbours on both sides. -/
theorem deallocate_ok (h : Inv A s) {r}
    (hbs : r.base = truncPage address) (hsz : r.size.get = nextMultipleOf size pageSize)
    (hr : Aligned pageSize r) (hold : A.Holds r) (hus : s.usedChunks.TopSafe r)
    (huns : s.unusedChunks.chunks.TopSafe r) :
    ∃ t, s.deallocate address size = .ok (r, t) ∧ Freed s t r ∧ Inv A t := by
  have hnew := Chunk.new_eq_ok.mpr ⟨hbs, hsz⟩
  obtain ⟨u, hu, husp, hum⟩ := removeRange_ok h.used hr hus
  obtain ⟨b, hb, hbgd, hbmn, hbmm⟩ := removeRange_ok h.unused (h.min ▸ hr) huns
  have hmin : b.minChunkSize = pageSize := hbmn.trans h.min
  have hwth : ∀ d ∈ b.chunks, A.Holds d ∧ d.Apart r := fun d hd => by
    obtain ⟨c, hc, hd⟩ := (hbmm d).mp hd
    obtain ⟨hlo, hhi, hap⟩ := Chunk.pieces_within (h.spaced.fits c hc) hr.fits hd
    have hcA := h.holds_unused hc
    exact ⟨⟨Nat.le_trans hcA.1 hlo, Nat.le_trans hhi hcA.2⟩, hap⟩
  have hgap : Gap A b r := ⟨hbgd, h.coalesced.pieces h.spaced hr.fits hbmm, hmin ▸ hr, hold,
    fun d hd => (hwth d hd).1, fun d hd => (hwth d hd).2⟩
  obtain ⟨left, b₁, m₁, hlf, hm₁, habs₁, hgap₁, hbs₁, haf⟩ := hgap.mergeAfter
  obtain ⟨right, b₂, m₂, hrgh, hm₂, habs₂, hgap₂, hhi₂, hbe⟩ := hgap₁.mergeBefore
  obtain ⟨v, hv, hvgd, hvmn, hvmm, hvhs⟩ := (habs₁.trans habs₂).insert_ok hgap₂.holds.size_lt
  have hvhs : ∀ x, v.chunks.Has x ↔ s.unusedChunks.chunks.Has x ∨ r.Has x := fun x => by
    rw [hvhs, has_of_pieces h.spaced hr.fits hbmm, and_or_right, and_iff_left (em' _)]
  have hfrd : Freed s ⟨u, v⟩ r := ⟨hr.fits, husp, hum, hvgd, hvmn.trans hmin, hvhs⟩
  refine ⟨⟨u, v⟩, ?_, hfrd, Returned.partition h.toPartition hfrd fun x hx => hold.has hx, fun c hc d hd => ?_⟩
  · rw [hbs₁] at hrgh
    simp [deallocate, hnew, hu, hb, hlf, hrgh, hm₁, hm₂, hv]
  · rcases (hvmm c).mp hc with rfl | hc <;> rcases (hvmm d).mp hd with rfl | hd
    · exact d.base_lt_hi.ne'
    · exact hhi₂ ▸ haf d (habs₂.sub d hd)
    · exact hbe c hc
    · exact hgap₂.coalesced c hc d hd

theorem deallocate_used (h : Inv A s) (hc : c ∈ s.usedChunks) :
    ∃ t, s.deallocate c.base c.size.get = .ok (c, t) ∧ Freed s t c ∧ Inv A t ∧
      ∀ d, d ∈ t.usedChunks ↔ d ∈ s.usedChunks ∧ d ≠ c := by
  have hag := h.used.aligned hc
  have hcl := c.base_lt_hi
  have hfit := hag.fits
  have hdvd : pageSize ∣ c.size.get := c.size_eq ▸ Nat.dvd_sub hag.dvd_hi hag.dvd_base
  have hbs : c.base = truncPage c.base := by
    rw [truncPage_eq (by omega), pageDown_of_dvd hag.dvd_base]
  have hsz : c.size.get = nextMultipleOf c.size.get pageSize := by
    rw [nextMultipleOf, if_pos (Nat.mod_eq_zero_of_dvd hdvd)]
  obtain ⟨t, ht, hfrd, hinv⟩ := deallocate_ok h hbs hsz hag (h.holds_used hc) (fun d hd htop => by
      by_cases hdc : d = c
      · rw [hdc]
      · have hap := h.used.apart d hd c hc hdc
        unfold Chunk.Apart at hap
        omega)
    (fun d hd htop => by
      have hap := h.apart c hc d hd
      unfold Chunk.Apart at hap
      omega)
  exact ⟨t, ht, hfrd, hinv, fun d => (hfrd.used d).trans (mem_pieces_self_iff h.used hc)⟩

end VMAllocator
end TouchHLE.Mem
