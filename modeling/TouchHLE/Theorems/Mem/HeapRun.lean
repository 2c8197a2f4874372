import TouchHLE.Theorems.Mem.Heap

/-! Any number of heaps over one allocator of pages, and every interleaving of their operations. The heaps own
    disjoint sets of pages, so an operation on one of them leaves the others alone. -/

namespace TouchHLE.Mem
open Lib HeapAllocator

structure Heaps (ι : Type) where
  vm : VMAllocator
  heaps : ι → Option HeapAllocator

/-- The operations on heaps, with arguments of the source's types. -/
inductive HeapCall (ι : Type) where
  | create (heap : ι) (size : UInt32)
  | alloc (heap : ι) (size : UInt32)
  | valloc (heap : ι) (size : UInt32)
  | free (heap : ι) (base : UInt32)
  | destroy (heap : ι)

inductive HeapResult where
  /-- the name is taken, or there is no heap of the name -/
  | skipped
  | created
  | allocated (chunk : Option Chunk)
  | freed (size : Nat)
  | destroyed

namespace Heaps
variable {ι : Type}

/-- Every heap is sound over the allocator of pages, and no page belongs to two heaps. -/
structure Inv (A : Arena) (s : Heaps ι) : Prop where
  vm : s.vm.Inv A
  heap : ∀ i h, s.heaps i = some h → h.Inv s.vm
  separate : ∀ i j h h', s.heaps i = some h → s.heaps j = some h' → i ≠ j → ∀ c ∈ h.intoVmChunks, c ∉ h'.intoVmChunks

def chunksOf : Option HeapAllocator → List Chunk
  | none => []
  | some h => h.intoVmChunks

section
variable {A : Arena} {s : Heaps ι} {i j : ι} {h₁ h₂ : HeapAllocator} {c d : Chunk}

def Live (h : HeapAllocator) (c : Chunk) : Prop := c ∈ h.usedChunks ∨ c ∈ h.externalChunks

section
variable (h : Inv A s) (hi : s.heaps i = some h₁)
include h hi

/-- Two different chunks of the allocator of pages that heaps own are apart. -/
theorem Inv.owned_apart
    (hj : s.heaps j = some h₂) (hc : c ∈ h₁.intoVmChunks) (hd : d ∈ h₂.intoVmChunks) (hne : c ≠ d ∨ i ≠ j) : c.Apart d := by
  refine h.vm.used.apart c ((h.heap i h₁ hi).owned c hc) d ((h.heap j h₂ hj).owned d hd) ?_
  rcases hne with hne | hne
  · exact hne
  · rintro rfl
    exact h.separate i j h₁ h₂ hi hj hne c hc hd

theorem Inv.external_apart (hc : c ∈ h₁.externalChunks) (hd : d ∈ h₁.backingChunks) : c.Apart d := by
  have hne : c ≠ d := fun heq =>
    (List.nodup_append.mp (h.heap i h₁ hi).nodup).2.2 c (ChunkMap.mem_intoIter.mpr hc) d hd heq
  exact h.owned_apart hi hi (mem_intoVmChunks.mpr (.inl hc))
    (mem_intoVmChunks.mpr (.inr hd)) (.inl hne)

theorem Inv.owner (hc : Live h₁ c) {x : Nat} (hx : c.Has x) :
    ∃ b ∈ h₁.intoVmChunks, b.Has x ∧ ((c ∈ h₁.usedChunks ∧ b ∈ h₁.backingChunks) ∨ (c ∈ h₁.externalChunks ∧ b = c)) := by
  rcases hc with hc | hc
  · obtain ⟨b, hb, hbx⟩ := (h.heap i h₁ hi).of_used hc hx
    exact ⟨b, mem_intoVmChunks.mpr (.inr hb), hbx, .inl ⟨hc, hb⟩⟩
  · exact ⟨c, mem_intoVmChunks.mpr (.inl hc), hx, .inr ⟨hc, rfl⟩⟩

theorem Inv.live_apart
    (hj : s.heaps j = some h₂) (hc : Live h₁ c) (hd : Live h₂ d) (hne : c ≠ d ∨ i ≠ j) : c.Apart d := by
  rw [Chunk.apart_iff]
  intro x hcx hdx
  obtain ⟨b, hb, hbx, hbc⟩ := h.owner hi hc hcx
  obtain ⟨e, he, hex, hed⟩ := h.owner hj hd hdx
  by_cases hij : i = j
  · subst hij
    obtain rfl : h₁ = h₂ := Option.some_inj.mp (hi.symm.trans hj)
    have hcd : c ≠ d := hne.resolve_right (fun hne => hne rfl)
    rcases hbc with ⟨hc, hb'⟩ | ⟨hc, rfl⟩ <;> rcases hed with ⟨hd, he'⟩ | ⟨hd, rfl⟩
    · exact Chunk.apart_iff.mp ((h.heap i h₁ hi).used.apart c hc d hd hcd) x hcx hdx
    · exact Chunk.apart_iff.mp (h.external_apart hi hd hb') x hex hbx
    · exact Chunk.apart_iff.mp (h.external_apart hi hc he') x hbx hex
    · exact Chunk.apart_iff.mp (h.owned_apart hi hi hb he (.inl hcd)) x hbx hex
  · exact Chunk.apart_iff.mp (h.owned_apart hi hj hb he (.inr hij)) x hbx hex

theorem Inv.aligned (hc : c ∈ h₁.usedChunks ∨ c ∈ h₁.unusedChunks.chunks ∨ c ∈ h₁.intoVmChunks) :
    Mem.minChunkSize ∣ c.base ∧ Mem.minChunkSize ∣ c.size.get := by
  have hinv := h.heap i h₁ hi
  have hag : ChunkMap.Aligned Mem.minChunkSize c := by
    rcases hc with hc | hc | hc
    · exact hinv.used.aligned hc
    · exact hinv.spaced.aligned hc
    · have hpag := h.vm.used.aligned (hinv.owned c hc)
      have hdvd : Mem.minChunkSize ∣ pageSize := by decide
      exact ⟨hpag.fits, Nat.dvd_trans hdvd hpag.dvd_base, Nat.dvd_trans hdvd hpag.dvd_hi⟩
  exact ⟨hag.dvd_base, c.size_eq ▸ Nat.dvd_sub hag.dvd_hi hag.dvd_base⟩

end

end

variable [DecidableEq ι]

def set (s : Heaps ι) (i : ι) (h : Option HeapAllocator) (vm : VMAllocator) : Heaps ι := ⟨vm, Function.update s.heaps i h⟩

def call (s : Heaps ι) : HeapCall ι → Except Panic (HeapResult × Heaps ι)
  | .create i size =>
    match s.heaps i with
    | some _ => .ok (.skipped, s)
    | none => do
      let (h, vm) ← HeapAllocator.new s.vm size.toNat
      .ok (.created, s.set i (some h) vm)
  | .alloc i size =>
    match s.heaps i with
    | none => .ok (.skipped, s)
    | some h => do
      let (o, h, vm) ← h.alloc s.vm size.toNat
      .ok (.allocated o, s.set i (some h) vm)
  | .valloc i size =>
    match s.heaps i with
    | none => .ok (.skipped, s)
    | some h => do
      let (o, h, vm) ← h.valloc s.vm size.toNat
      .ok (.allocated o, s.set i (some h) vm)
  | .free i base =>
    match s.heaps i with
    | none => .ok (.skipped, s)
    | some h => do
      let (n, h, vm) ← h.free s.vm base.toNat
      .ok (.freed n, s.set i (some h) vm)
  | .destroy i =>
    match s.heaps i with
    | none => .ok (.skipped, s)
    | some h => do
      let vm ← giveBack s.vm h.intoVmChunks
      .ok (.destroyed, s.set i none vm)

variable {A : Arena} {s t : Heaps ι} {i : ι} {vm' : VMAllocator} {c : HeapCall ι} {r : HeapResult}

theorem Inv.set (h : Inv A s) {o} (hvm : vm'.Inv A) (ho : ∀ h', o = some h' → h'.Inv vm')
    (hfm : Frame s.vm vm' (chunksOf (s.heaps i)) (chunksOf o)) : Inv A (s.set i o vm') := by
  -- The chunks of another heap are used and not owned by heap `i`.
  have hoh : ∀ j h', j ≠ i → s.heaps j = some h' → ∀ c ∈ h'.intoVmChunks, c ∈ s.vm.usedChunks ∧ c ∉ chunksOf (s.heaps i) := by
    intro j h' hj hh' c hc
    refine ⟨(h.heap j h' hh').owned c hc, ?_⟩
    cases hi : s.heaps i with
    | none => exact List.not_mem_nil
    | some h₀ => exact h.separate j i h' h₀ hh' hi hj c hc
  refine ⟨hvm, fun j h' hh' => ?_, fun j k h₁ h₂ hh₁ hh₂ hjk c hc => ?_⟩
  · by_cases hj : j = i
    · subst hj
      exact ho h' (by simpa [Heaps.set] using hh')
    · have hh' : s.heaps j = some h' := by simpa [Heaps.set, hj] using hh'
      have hold := h.heap j h' hh'
      refine ⟨hold.toPartition, fun c hc => ?_, hold.nodup⟩
      obtain ⟨hus, hnot⟩ := hoh j h' hj hh' c hc
      exact (hfm c hus hnot).1
  · by_cases hj : j = i
    · subst hj
      have hk : k ≠ j := Ne.symm hjk
      have hhea : s.heaps k = some h₂ := by simpa [Heaps.set, hk] using hh₂
      obtain rfl : o = some h₁ := by simpa [Heaps.set] using hh₁
      intro hc₂
      obtain ⟨hus, hnot⟩ := hoh k h₂ hk hhea c hc₂
      exact (hfm c hus hnot).2 hc
    · have hh₁ : s.heaps j = some h₁ := by simpa [Heaps.set, hj] using hh₁
      obtain ⟨hus, hnot⟩ := hoh j h₁ hj hh₁ c hc
      by_cases hk : k = i
      · subst hk
        obtain rfl : o = some h₂ := by simpa [Heaps.set] using hh₂
        exact (hfm c hus hnot).2
      · have hh₂ : s.heaps k = some h₂ := by simpa [Heaps.set, hk] using hh₂
        exact h.separate j k h₁ h₂ hh₁ hh₂ hjk c hc

inductive Did (s : Heaps ι) : HeapCall ι → HeapResult → Heaps ι → Prop where
  | skipped {c : HeapCall ι} : Did s c .skipped s
  | created {i : ι} {size : UInt32} {h : HeapAllocator} {vm : VMAllocator} (absent : s.heaps i = none)
      (step : Created s.vm size.toNat h vm) : Did s (.create i size) .created (s.set i (some h) vm)
  | allocated {i : ι} {size : UInt32} {h h' : HeapAllocator} {vm : VMAllocator} {o : Option Chunk} (present : s.heaps i = some h)
      (step : Allocated s.vm h (allocSize size.toNat) o h' vm) :
      Did s (.alloc i size) (.allocated o) (s.set i (some h') vm)
  | vallocRefused {i : ι} {size : UInt32} {h : HeapAllocator} (present : s.heaps i = some h) :
      Did s (.valloc i size) (.allocated none) (s.set i (some h) s.vm)
  | vallocated {i : ι} {size : UInt32} {h h' : HeapAllocator} {vm : VMAllocator} {c a : Chunk} (present : s.heaps i = some h)
      (step : External s.vm vm h h' c a) :
      Did s (.valloc i size) (.allocated (some a)) (s.set i (some h') vm)
  | freed {i : ι} {base : UInt32} {h h' : HeapAllocator} {vm : VMAllocator} {n : Nat} (present : s.heaps i = some h)
      (step : Released s.vm h base.toNat n h' vm) : Did s (.free i base) (.freed n) (s.set i (some h') vm)
  | destroyed {i : ι} {h : HeapAllocator} {vm : VMAllocator} (present : s.heaps i = some h)
      (step : giveBack s.vm h.intoVmChunks = .ok vm) : Did s (.destroy i) .destroyed (s.set i none vm)

/-- Every call returns with what it did, or stops because a request cannot be met. -/
theorem call_cases (h : Inv A s) (c : HeapCall ι) :
    (∃ r t, s.call c = .ok (r, t) ∧ Did s c r t) ∨ ∃ p, s.call c = .error p ∧ Exhausted p := by
  cases c with
  | create i size =>
    cases hi : s.heaps i with
    | some h₀ => exact .inl ⟨.skipped, s, by simp [call, hi], .skipped⟩
    | none =>
      rcases new_spec h.vm size.toNat_lt with ⟨p, heq, hp⟩ | ⟨h', vm', heq, hnew⟩
      · exact .inr ⟨p, by simp [call, hi, heq], hp⟩
      · exact .inl ⟨_, _, by simp [call, hi, heq], .created hi hnew⟩
  | alloc i size =>
    cases hi : s.heaps i with
    | none => exact .inl ⟨.skipped, s, by simp [call, hi], .skipped⟩
    | some h₀ =>
      rcases alloc_spec h.vm (h.heap i h₀ hi) size.toNat_lt with ⟨p, heq, hp⟩ | ⟨o, h', vm', heq, -, hst⟩
      · exact .inr ⟨p, by simp [call, hi, heq], hp⟩
      · exact .inl ⟨_, _, by simp [call, hi, heq], .allocated hi hst⟩
  | valloc i size =>
    cases hi : s.heaps i with
    | none => exact .inl ⟨.skipped, s, by simp [call, hi], .skipped⟩
    | some h₀ =>
      rcases valloc_spec h.vm (h.heap i h₀ hi) size.toNat_lt with
        ⟨p, heq, hp⟩ | heq | ⟨c, a, h', vm', heq, -, hext⟩
      · exact .inr ⟨p, by simp [call, hi, heq], hp⟩
      · exact .inl ⟨_, _, by simp [call, hi, heq], .vallocRefused hi⟩
      · exact .inl ⟨_, _, by simp [call, hi, heq], .vallocated hi hext⟩
  | free i base =>
    cases hi : s.heaps i with
    | none => exact .inl ⟨.skipped, s, by simp [call, hi], .skipped⟩
    | some h₀ =>
      obtain ⟨n, h', vm', heq, hst⟩ := free_spec h.vm (h.heap i h₀ hi) base.toNat
      exact .inl ⟨_, _, by simp [call, hi, heq], .freed hi hst⟩
  | destroy i =>
    cases hi : s.heaps i with
    | none => exact .inl ⟨.skipped, s, by simp [call, hi], .skipped⟩
    | some h₀ =>
      have hinv₀ := h.heap i h₀ hi
      obtain ⟨vm', heq, -⟩ := giveBack_spec h.vm hinv₀.nodup hinv₀.owned
      exact .inl ⟨_, _, by simp [call, hi, heq], .destroyed hi heq⟩

theorem did_of_call (h : Inv A s) (hcl : s.call c = .ok (r, t)) : Did s c r t := by
  rcases call_cases h c with ⟨r', t', hcl', hdid⟩ | ⟨p, herr, -⟩
  · rw [hcl] at hcl'
    cases hcl'
    exact hdid
  · rw [hcl] at herr
    cases herr

theorem Inv.set_some (h : Inv A s) {h₀ h'} (hi : s.heaps i = some h₀)
    (hst : vm'.Inv A ∧ h'.Inv vm' ∧ Frame s.vm vm' h₀.intoVmChunks h'.intoVmChunks) :
    Inv A (s.set i (some h') vm') := by
  refine h.set hst.1 ?_ ?_
  · rintro _ ⟨⟩
    exact hst.2.1
  · rw [hi]
    exact hst.2.2

theorem Did.inv (h : Inv A s) (hdid : Did s c r t) : Inv A t := by
  cases hdid with
  | skipped => exact h
  | created hab hnew =>
    refine h.set (hnew.vmInv h.vm) ?_ ?_
    · rintro _ ⟨⟩
      exact hnew.inv
    · rw [hab]
      exact hnew.frame h.vm
  | allocated hi hst => exact h.set_some hi (hst.inv h.vm (h.heap _ _ hi))
  | vallocRefused hi => exact h.set_some hi ⟨h.vm, h.heap _ _ hi, .refl _ _⟩
  | vallocated hi hext =>
    have hinv₀ := h.heap _ _ hi
    exact h.set_some hi ⟨hext.taken.inv h.vm, hext.inv h.vm hinv₀, hext.frame h.vm hinv₀⟩
  | freed hi hst => exact h.set_some hi (hst.inv h.vm (h.heap _ _ hi))
  | destroyed hi heq =>
    have hinv₀ := h.heap _ _ hi
    obtain ⟨vm', heq', hvm', hus⟩ := giveBack_spec h.vm hinv₀.nodup hinv₀.owned
    rw [heq] at heq'
    cases heq'
    refine h.set hvm' nofun fun d hd hdl => ?_
    rw [hi] at hdl
    exact ⟨(hus d).mpr ⟨hd, hdl⟩, List.not_mem_nil⟩

def start (vm : VMAllocator) : Heaps ι := ⟨vm, fun _ => none⟩

theorem inv_of_runs {vm} {guard}
    (hnew : VMAllocator.new A.base A.len = .ok vm) (hrun : Runs call guard (start vm) s) : Inv A s := by
  exact hrun.invariant ⟨VMAllocator.inv_new hnew, nofun, nofun⟩ fun s t c r hs _ hcl => (did_of_call hs hcl).inv hs

/-- In every state that heaps over one allocator of pages reach: each heap partitions its backing chunks, its
    external chunks are apart from them, all chunks that heaps own are disjoint used chunks of the allocator of
    pages, everything is aligned, and no two live allocations overlap. The next call stops only for a
    request that cannot be met. -/
theorem sound_of_runs (A : Arena) (vm : VMAllocator) (hnew : VMAllocator.new A.base A.len = .ok vm) (s : Heaps ι)
    (hrun : Runs call (fun _ _ => True) (start vm) s) :
    Inv A s ∧ (∀ i h, s.heaps i = some h → ∀ c ∈ h.externalChunks, ∀ d ∈ h.backingChunks, c.Apart d) ∧
      (∀ i j h h', s.heaps i = some h → s.heaps j = some h' → ∀ c ∈ h.intoVmChunks, ∀ d ∈ h'.intoVmChunks,
        c ≠ d ∨ i ≠ j → c.Apart d) ∧
      (∀ i h, s.heaps i = some h → ∀ c, c ∈ h.usedChunks ∨ c ∈ h.unusedChunks.chunks ∨ c ∈ h.intoVmChunks →
        Mem.minChunkSize ∣ c.base ∧ Mem.minChunkSize ∣ c.size.get) ∧
      (∀ i j h h', s.heaps i = some h → s.heaps j = some h' → ∀ c d, Live h c → Live h' d → c ≠ d ∨ i ≠ j → c.Apart d) ∧
      ∀ c, (∃ r t, s.call c = .ok (r, t) ∧ Inv A t) ∨ ∃ p, s.call c = .error p ∧ Exhausted p := by
  have h := inv_of_runs hnew hrun
  refine ⟨h, ?_, ?_, ?_, ?_, fun c => ?_⟩
  · exact fun i h₁ hi c hc d hd => h.external_apart hi hc hd
  · exact fun i j h₁ h₂ hi hj c hc d hd hne => h.owned_apart hi hj hc hd hne
  · exact fun i h₁ hi c hc => h.aligned hi hc
  · exact fun i j h₁ h₂ hi hj c d hc hd hne => h.live_apart hi hj hc hd hne
  · rcases call_cases h c with ⟨r, t, hcall, hdid⟩ | hpanic
    · exact .inl ⟨r, t, hcall, hdid.inv h⟩
    · exact .inr hpanic

/-- A heap with one allocation inside it and one outside. -/
theorem sound_of_runs_two : ∃ vm s₁ s₂ s₃ r₁ r₂ r₃, VMAllocator.new 0 0xFFF00000 = .ok vm ∧
      (start vm : Heaps Bool).call (.create true 0) = .ok (r₁, s₁) ∧ s₁.call (.alloc true 100) = .ok (r₂, s₂) ∧
      s₂.call (.valloc true 1) = .ok (r₃, s₃) ∧
      Inv ⟨0, 0xFFF00000, by decide, by decide, by decide, by decide, by decide⟩ s₃ :=
  ⟨_, _, _, _, _, _, _, rfl, rfl, rfl, rfl, (sound_of_runs _ _ rfl _ (.step (a := .valloc true 1) (.step (a := .alloc true 100)
    (.step (a := .create true 0) .start trivial rfl) trivial rfl) trivial rfl)).1⟩

end Heaps
end TouchHLE.Mem
