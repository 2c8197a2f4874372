import TouchHLE.Theorems.Mem.HeapRun

/-! Fragmentation of a heap. `free` merges a chunk with the unused chunk after it or else with the one before it, never with
    both, so a chunk freed between two unused ones leaves two unused chunks that touch. -/

namespace TouchHLE.Mem
open Lib HeapAllocator

namespace HeapAllocator

def Interior (h : HeapAllocator) (x : Nat) : Prop := ∃ b ∈ h.backingChunks, b.base < x ∧ x < b.hi

def Coalesced (h : HeapAllocator) : Prop :=
  ∀ c ∈ h.unusedChunks.chunks, ∀ d ∈ h.unusedChunks.chunks, c.hi = d.base → ¬h.Interior c.hi

/-- In particular no two unused chunks of one backing chunk touch. -/
theorem Coalesced.not_touch {h : HeapAllocator} (hco : h.Coalesced) {b c d} (hb : b ∈ h.backingChunks)
    (hc : c ∈ h.unusedChunks.chunks) (hd : d ∈ h.unusedChunks.chunks) (hcb : b.base ≤ c.base ∧ c.hi ≤ b.hi)
    (hdb : b.base ≤ d.base ∧ d.hi ≤ b.hi) : c.hi ≠ d.base := fun htc => by
  have := c.base_lt_hi
  have := d.base_lt_hi
  exact hco c hc d hd htc ⟨b, hb, by omega, by omega⟩

/-- The used chunk at `base` lies between two unused chunks, the first of them in the same backing chunk. -/
def Between (h : HeapAllocator) (base : Nat) : Prop := ∃ f ∈ h.usedChunks, f.base = base ∧ h.Interior base ∧
    (∃ c ∈ h.unusedChunks.chunks, c.hi = f.base) ∧ ∃ c ∈ h.unusedChunks.chunks, c.base = f.hi

section
variable {A : Arena} {vm vm' : VMAllocator} {h h' : HeapAllocator} {b c a f m : Chunk} {o : Option Chunk}

/-! ### What each operation keeps -/

theorem Inside.coalesced (hi : h.Inv vm) (hin : Inside h h' c a) (hco : h.Coalesced) : h'.Coalesced := by
  intro d hd e he htc
  obtain ⟨c₁, hc₁, c₂, hc₂, hhi, hbs⟩ :=
    ChunkMap.touch_of_pieces hi.spaced hin.moved.aligned.fits hin.moved.unused hd he htc
  have hno := hco c₁ hc₁ c₂ hc₂ (hhi.trans hbs.symm)
  rwa [hhi, Interior, ← hin.backing] at hno

theorem Grown.coalesced (hvm : vm.Inv A) (hi : h.Inv vm) (hg : Grown vm vm' h h' c b) (hco : h.Coalesced) :
    h'.Coalesced := by
  have hini : ∀ x, h'.Interior x ↔ h.Interior x ∨ (b.base < x ∧ x < b.hi) := fun x => by
    simp [Interior, hg.backing]
  -- The new chunk lies outside what backed the heap before.
  have hout : ∀ x, h.Backed x → ¬b.Has x := fun x hx hbx => not_backed_of_taken hvm hi hg.taken hbx hx
  have heg : ∀ d ∈ h.unusedChunks.chunks, ¬(b.base < d.hi ∧ d.hi < b.hi) ∧ ¬(b.base < d.base ∧ d.base < b.hi) := by
    intro d hd
    have hdl := d.base_lt_hi
    have hls := hout (d.hi - 1) (hi.of_unused hd ⟨by omega, by omega⟩)
    have hfs := hout d.base (hi.of_unused hd ⟨Nat.le_refl _, hdl⟩)
    unfold Chunk.Has at hls hfs
    omega
  have hbrd : ∀ x, x = b.base ∨ x = b.hi → ¬h.Interior x := by
    rintro x hx ⟨b', hb', hlo, hhi⟩
    have hbl := b.base_lt_hi
    have hx' := hout (b.base) ⟨b', hb', ?_⟩ ⟨Nat.le_refl _, hbl⟩
    · exact hx'
    · rcases hx with rfl | rfl
      · exact ⟨Nat.le_of_lt hlo, hhi⟩
      · refine absurd ⟨b', hb', ?_⟩ (fun hbc => hout (b.hi - 1) hbc ⟨by omega, by omega⟩)
        exact ⟨by omega, by omega⟩
  intro d hd e he htc hint
  have hbl := b.base_lt_hi
  rcases (hini d.hi).mp hint with hint | hint
  · rcases (hg.unused d).mp hd with rfl | hd <;> rcases (hg.unused e).mp he with rfl | he
    · omega
    · exact hbrd d.hi (.inr rfl) hint
    · exact hbrd d.hi (.inl htc) hint
    · exact hco d hd e he htc hint
  · rcases (hg.unused d).mp hd with rfl | hd
    · omega
    · exact (heg d hd).1 hint

/-- A chunk that is not freed between two unused ones leaves no two that touch. -/
theorem Merged.coalesced (hm : Merged h h' f m o) (hco : h.Coalesced) (hnot : ¬h.Between f.base) : h'.Coalesced := by
  have hml := m.base_lt_hi
  have hini : ∀ x, h'.Interior x ↔ h.Interior x := fun x => by rw [Interior, Interior, hm.backing]
  intro d hd e he htc hint
  have hint := (hini d.hi).mp hint
  rcases (hm.unused d).mp hd with rfl | ⟨hd, hdo⟩ <;> rcases (hm.unused e).mp he with rfl | ⟨he, heo⟩
  · omega
  · -- After the merged chunk: nothing touches, or the neighbour touched it before.
    cases o with
    | none =>
      obtain rfl : d = f := hm.joined
      exact nomatch hm.after e he htc.symm
    | some c =>
      rcases hm.joined with ⟨hcf, -, hhi⟩ | ⟨hcf, -, hhi⟩
      · exact heo (hm.after e he (htc.symm.trans hhi))
      · exact hco c (hm.found c rfl) e he (hhi.symm.trans htc) (hhi ▸ hint)
  · -- Before the merged chunk: only a chunk freed between two others is touched there.
    cases o with
    | none =>
      obtain rfl : e = f := hm.joined
      exact nomatch hm.before (fun c hc hcb => nomatch hm.after c hc hcb) d hd htc
    | some c =>
      rcases hm.joined with ⟨hcf, hbs, -⟩ | ⟨hcf, hbs, -⟩
      · exact hco d hd c (hm.found c rfl) (htc.trans hbs) hint
      · refine hnot ⟨f, hm.mem, rfl, ?_, ⟨d, hd, htc.trans hbs⟩, c, hm.found c rfl, hcf⟩
        exact htc.trans hbs ▸ hint
  · exact hco d hd e he htc hint

theorem External.coalesced (he : External vm vm' h h' c a) (hco : h.Coalesced) : h'.Coalesced := by
  unfold Coalesced Interior
  rw [he.unused, he.backing]
  exact hco

theorem Allocated.coalesced {size : Nat} (hvm : vm.Inv A) (hi : h.Inv vm) (ha : Allocated vm h size o h' vm')
    (hco : h.Coalesced) : h'.Coalesced := by
  cases ha with
  | refused => exact hco
  | external _ _ he => exact he.coalesced hco
  | inside _ _ hin => exact hin.coalesced hi hco
  | grown _ _ hg hin => exact hin.coalesced (hg.inv hvm hi) (hg.coalesced hvm hi hco)

theorem Created.coalesced {size : Nat} (hc : Created vm size h vm') : h.Coalesced := by
  intro d hd e he htc
  cases hc with
  | empty => exact absurd hd (ChunkMap.not_mem_empty d)
  | backed _ _ hone =>
    rw [(hone d).mp hd, (hone e).mp he] at htc
    exact absurd htc (Chunk.base_lt_hi _).ne'

theorem Released.coalesced {base n : Nat} (hr : Released vm h base n h' vm') (hco : h.Coalesced)
    (hnot : ¬h.Between base) : h'.Coalesced := by
  cases hr with
  | external _ hg =>
    unfold Coalesced Interior
    rw [hg.unused, hg.backing]
    exact hco
  | inside hbs hm =>
    subst hbs
    exact hm.coalesced hco hnot
  | unknown => exact hco

/-! ### A heap with nothing allocated in it -/

/-- When nothing in the heap is used, every backing chunk lies in one unused chunk. -/
theorem Coalesced.backing_within (hco : h.Coalesced) (hi : h.Inv vm) (hem : ∀ d, d ∉ h.usedChunks)
    (hb : b ∈ h.backingChunks) : ∃ c ∈ h.unusedChunks.chunks, c.base ≤ b.base ∧ b.hi ≤ c.hi := by
  have hcvr : ∀ x, b.Has x → h.unusedChunks.chunks.Has x := fun x hx => by
    rcases (hi.cover x).mpr ⟨b, hb, hx⟩ with ⟨d, hd, -⟩ | hx
    · exact absurd hd (hem d)
    · exact hx
  have hbl := b.base_lt_hi
  obtain ⟨c, hc, hcx⟩ := hcvr b.base ⟨Nat.le_refl _, hbl⟩
  refine ⟨c, hc, hcx.1, Nat.le_of_not_lt fun hlt => ?_⟩
  -- Otherwise the chunk ends inside the backing chunk, and another one begins there.
  obtain ⟨d, hd, hdx⟩ := hcvr c.hi ⟨Nat.le_of_lt hcx.2, hlt⟩
  have hcd : c ≠ d := by
    rintro rfl
    exact Nat.lt_irrefl _ hdx.2
  have hap := hi.spaced.apart c hc d hd hcd
  have htc : c.hi = d.base := by
    have := c.base_lt_hi
    unfold Chunk.Apart at hap
    unfold Chunk.Has at hdx
    omega
  exact hco c hc d hd htc ⟨b, hb, hcx.2, hlt⟩

theorem alloc_of_fits (hi : h.Inv vm) {size : Nat} (hlt : size < 2 ^ 32) (hpos : 0 < allocSize size)
    (hth : allocSize size ≤ heapAllocationThreshold) (hc : c ∈ h.unusedChunks.chunks) (hfit : allocSize size ≤ c.size.get) :
    ∃ a h', h.alloc vm size = .ok (some a, h', vm) ∧ h'.backingChunks = h.backingChunks := by
  rcases allocSize_spec hlt with ⟨hdvd, hle, hsz, -⟩ | hzr
  · rcases allocUnused_spec hi hdvd hle hsz with ⟨-, hsl⟩ | ⟨c', a, h', heq, -, hin⟩
    · exact absurd (hsl c hc) (Nat.not_lt.mpr hfit)
    · refine ⟨a, h', ?_, hin.backing⟩
      simp [alloc, if_neg (Nat.not_lt.mpr hth), heq]
  · omega

end
end HeapAllocator

namespace Heaps
variable {ι : Type} [DecidableEq ι] {A : Arena} {s t : Heaps ι}

/-- No call frees a chunk between two unused ones. -/
def Careful (s : Heaps ι) : HeapCall ι → Prop
  | .free i base => ∀ h, s.heaps i = some h → ¬h.Between base.toNat
  | _ => True

theorem forall_set {P : HeapAllocator → Prop} {i : ι} {o} {vm}
    (hs : ∀ j h, s.heaps j = some h → P h) (ho : ∀ h, o = some h → P h) :
    ∀ j h, (s.set i o vm).heaps j = some h → P h := by
  intro j h hh
  by_cases hj : j = i
  · subst hj
    exact ho h (by simpa [Heaps.set] using hh)
  · exact hs j h (by simpa [Heaps.set, hj] using hh)

/-- A careful call keeps every heap coalesced. -/
theorem Did.coalesced (h : Inv A s) (hco : ∀ i h, s.heaps i = some h → h.Coalesced) {c} {r}
    (hcae : s.Careful c) (hdid : Did s c r t) : ∀ i h, t.heaps i = some h → h.Coalesced := by
  cases hdid with
  | skipped => exact hco
  | created _ hnew =>
    refine forall_set hco ?_
    rintro _ ⟨⟩
    exact hnew.coalesced
  | allocated hi hst =>
    refine forall_set hco ?_
    rintro _ ⟨⟩
    exact hst.coalesced h.vm (h.heap _ _ hi) (hco _ _ hi)
  | vallocRefused hi =>
    refine forall_set hco ?_
    rintro _ ⟨⟩
    exact hco _ _ hi
  | vallocated hi hext =>
    refine forall_set hco ?_
    rintro _ ⟨⟩
    exact hext.coalesced (hco _ _ hi)
  | freed hi hst =>
    refine forall_set hco ?_
    rintro _ ⟨⟩
    exact hst.coalesced (hco _ _ hi) (hcae _ hi)
  | destroyed => exact forall_set hco nofun

/-- In every run that frees no chunk between two unused ones, no two unused chunks of one backing chunk touch. A heap in
    which everything was freed then has each backing chunk in one unused chunk, and meets there, without growing,
    a request that is allocated inside the heap and no larger than the backing chunk. -/
theorem coalesced_of_runs (A : Arena) (vm : VMAllocator) (hnew : VMAllocator.new A.base A.len = .ok vm) (s : Heaps ι)
    (hrun : Runs call Careful (start vm) s) (i : ι) (h : HeapAllocator) (hh : s.heaps i = some h) :
    (∀ b ∈ h.backingChunks, ∀ c ∈ h.unusedChunks.chunks, ∀ d ∈ h.unusedChunks.chunks,
        b.base ≤ c.base ∧ c.hi ≤ b.hi → b.base ≤ d.base ∧ d.hi ≤ b.hi → c.hi ≠ d.base) ∧
      ((∀ d, d ∉ h.usedChunks) → ∀ b ∈ h.backingChunks, (∃ c ∈ h.unusedChunks.chunks, c.base ≤ b.base ∧ b.hi ≤ c.hi) ∧
          ∀ size : UInt32, allocSize size.toNat ≤ heapAllocationThreshold →
            0 < allocSize size.toNat → allocSize size.toNat ≤ b.size.get →
            ∃ a h', h.alloc s.vm size.toNat = .ok (some a, h', s.vm) ∧ h'.backingChunks = h.backingChunks) := by
  have hboth := hrun.invariant (P := fun s => Inv A s ∧ ∀ i h, s.heaps i = some h → h.Coalesced)
      ⟨⟨VMAllocator.inv_new hnew, nofun, nofun⟩, nofun⟩ fun s t c r hs hcare hcall =>
        have hdid := did_of_call hs.1 hcall
        ⟨hdid.inv hs.1, hdid.coalesced hs.1 hs.2 hcare⟩
  have hinv := hboth.1.heap i h hh
  have hco := hboth.2 i h hh
  refine ⟨fun b hb c hc d hd hcb hdb => hco.not_touch hb hc hd hcb hdb, fun hempty b hb => ?_⟩
  obtain ⟨c, hc, hlo, hhi⟩ := hco.backing_within hinv hempty hb
  refine ⟨⟨c, hc, hlo, hhi⟩, fun size hth hpos hfit => ?_⟩
  refine alloc_of_fits hinv size.toNat_lt hpos hth hc (Nat.le_trans hfit ?_)
  have := c.hi_eq
  have := b.hi_eq
  omega

/-- One chunk allocated in a heap of four pages and freed again. -/
theorem coalesced_of_runs_page : ∃ vm s₁ s₂ s₃ r₁ r₂ r₃ h, VMAllocator.new 0 0xFFF00000 = .ok vm ∧
      (start vm : Heaps Unit).call (.create () 0x4000) = .ok (r₁, s₁) ∧ s₁.call (.alloc () 16) = .ok (r₂, s₂) ∧
      s₂.call (.free () 0) = .ok (r₃, s₃) ∧ s₃.heaps () = some h ∧
      ∀ b ∈ h.backingChunks, ∀ c ∈ h.unusedChunks.chunks, ∀ d ∈ h.unusedChunks.chunks,
        b.base ≤ c.base ∧ c.hi ≤ b.hi → b.base ≤ d.base ∧ d.hi ≤ b.hi → c.hi ≠ d.base := by
  refine ⟨_, _, _, _, _, _, _, _, rfl, rfl, rfl, rfl, rfl, ?_⟩
  refine (coalesced_of_runs ⟨0, 0xFFF00000, by decide, by decide, by decide, by decide, by decide⟩ _ rfl _
    (.step (a := .free () 0) (.step (a := .alloc () 16) (.step (a := .create () 0x4000) .start trivial rfl) trivial rfl) ?_ rfl)
    () _ rfl).1
  -- The first chunk begins at the border of the backing chunk.
  rintro h hh ⟨f, -, -, ⟨b, hb, hlt, -⟩, -⟩
  exact absurd hlt (Nat.not_lt_zero _)

/-- A chunk freed between two unused ones stays separate from the one before it: the backing chunk is all unused
    but in two halves, and the next request makes the heap grow. -/
theorem coalesced_fails : ∃ vm s₁ s₂ s₃ s₄ s₅ s₆ r₁ r₂ r₃ r₄ r₅ r₆ h h', VMAllocator.new 0 0xFFF00000 = .ok vm ∧
      (start vm : Heaps Unit).call (.create () 0x4000) = .ok (r₁, s₁) ∧ s₁.call (.alloc () 0x2000) = .ok (r₂, s₂) ∧
      s₂.call (.alloc () 16) = .ok (r₃, s₃) ∧ s₃.call (.free () 0) = .ok (r₄, s₄) ∧ s₄.call (.free () 0x2000) = .ok (r₅, s₅) ∧
      s₅.heaps () = some h ∧ h.usedChunks.intoIter = [] ∧ h.backingChunks = [⟨0, 0x4000, by decide⟩] ∧
      h.unusedChunks.chunks.intoIter = [⟨0, 0x2000, by decide⟩, ⟨0x2000, 0x2000, by decide⟩] ∧
      s₅.call (.alloc () 0x3000) = .ok (r₆, s₆) ∧ s₆.heaps () = some h' ∧ h'.backingChunks.length = 2 :=
  ⟨_, _, _, _, _, _, _, _, _, _, _, _, _, _, _, rfl, rfl, rfl, rfl, rfl, rfl, rfl, rfl, rfl, rfl, rfl, rfl, rfl⟩

end Heaps
end TouchHLE.Mem
