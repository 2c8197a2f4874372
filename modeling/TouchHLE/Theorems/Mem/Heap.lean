import TouchHLE.Theorems.Mem.VMRun

/-! One heap over the allocator of pages. Its used and unused chunks partition its backing chunks. Each operation is described
    by what it moves, and leaves alone the pages that the heap does not own (`Frame`). -/

namespace TouchHLE.Mem
open Lib List ChunkMap VMAllocator HeapAllocator Mem
variable {size : Nat}

namespace HeapAllocator

def Backed (h : HeapAllocator) (x : Nat) : Prop := ∃ b ∈ h.backingChunks, b.Has x

structure Inv (vm : VMAllocator) (h : HeapAllocator) : Prop extends
    Partition minChunkSize h.Backed h.usedChunks h.unusedChunks where
  owned : ∀ c ∈ h.intoVmChunks, c ∈ vm.usedChunks
  nodup : h.intoVmChunks.Nodup

theorem mem_intoVmChunks {h : HeapAllocator} {c} :
    c ∈ h.intoVmChunks ↔ c ∈ h.externalChunks ∨ c ∈ h.backingChunks := by
  rw [intoVmChunks, mem_append, mem_intoIter]

/-- What an operation does to the pages that are used by others: nothing. The lists are the chunks that the heap
    owned before and owns afterwards. -/
def Frame (vm vm' : VMAllocator) (l l' : List Chunk) : Prop := ∀ d ∈ vm.usedChunks, d ∉ l → d ∈ vm'.usedChunks ∧ d ∉ l'

theorem Frame.refl (vm : VMAllocator) (l : List Chunk) : Frame vm vm l l := fun _ hd hdl => ⟨hd, hdl⟩

/-- The panics of a request that cannot be met: there is no memory, or the size cannot be rounded up, or it is zero
    where it may not be. -/
def Exhausted (p : Panic) : Prop :=
  p = .heapSpace ∨ p = .heapMemory ∨ p = .vallocZero ∨ p = .sizeNotPageMultiple ∨ p = .requestBelowMinimum

/-- A request is rounded up to a multiple of the minimum size, unless it is too large for that and wraps to zero. -/
theorem allocSize_spec {n : Nat} (h : n < 2 ^ 32) :
    (minChunkSize ∣ allocSize n ∧ minChunkSize ≤ allocSize n ∧ allocSize n < 2 ^ 32 ∧ n ≤ allocSize n ∧
        allocSize n < n + 2 * minChunkSize) ∨ allocSize n = 0 := by
  have hmin : minChunkSize = 16 := rfl
  rw [allocSize, align, hmin]
  obtain ⟨m, hm⟩ : ∃ m, m = max n 16 := ⟨_, rfl⟩
  rw [← hm]
  by_cases hmod : m % 16 = 0
  · rw [if_neg (by omega)]
    exact .inl ⟨Nat.dvd_of_mod_eq_zero hmod, by omega, by omega, by omega, by omega⟩
  · rw [if_pos (by omega)]
    by_cases hfit : m + 16 < 2 ^ 32
    · rw [wrap_of_lt hfit, wrap_of_lt (by omega)]
      exact .inl ⟨Nat.dvd_of_mod_eq_zero (by omega), by omega, by omega, by omega, by omega⟩
    · right
      have hwp : wrap (m + 16) = m % 16 := by
        unfold wrap
        omega
      rw [hwp, Nat.sub_self]
      rfl

section
variable {A : Arena} {vm vm' : VMAllocator} {h h' : HeapAllocator} {c a b : Chunk}

structure External (vm vm' : VMAllocator) (h h' : HeapAllocator) (c a : Chunk) : Prop where
  taken : vm.Taken vm' c a
  external : ∀ d, d ∈ h'.externalChunks ↔ d = a ∨ d ∈ h.externalChunks
  backing : h'.backingChunks = h.backingChunks
  used : h'.usedChunks = h.usedChunks
  unused : h'.unusedChunks = h.unusedChunks

theorem fresh (hvm : vm.Inv A) (ht : vm.Taken vm' c a) {d} (hd : d ∈ vm.usedChunks) : d ≠ a := by
  rintro rfl
  exact d.not_apart_self (ht.apart_used hvm.toPartition hd)

theorem owned_of_taken (hvm : vm.Inv A) (hi : h.Inv vm) (ht : vm.Taken vm' c a)
    (hmem : ∀ d, d ∈ h'.intoVmChunks ↔ d = a ∨ d ∈ h.intoVmChunks) :
    (∀ d ∈ h'.intoVmChunks, d ∈ vm'.usedChunks) ∧ Frame vm vm' h.intoVmChunks h'.intoVmChunks := by
  refine ⟨fun d hd => (ht.used d).mpr ?_, fun d hd hdl => ⟨(ht.used d).mpr (.inr hd), fun hd' => ?_⟩⟩
  · exact ((hmem d).mp hd).imp_right (hi.owned d)
  · rcases (hmem d).mp hd' with rfl | hd'
    · exact fresh hvm ht hd rfl
    · exact hdl hd'

namespace External

theorem mem (he : External vm vm' h h' c a) (d : Chunk) : d ∈ h'.intoVmChunks ↔ d = a ∨ d ∈ h.intoVmChunks := by
  rw [mem_intoVmChunks, mem_intoVmChunks, he.external, he.backing, or_assoc]

theorem inv (hvm : vm.Inv A) (hi : h.Inv vm) (he : External vm vm' h h' c a) : h'.Inv vm' where
  toPartition := by
    have hR : ∀ x, h.Backed x ↔ h'.Backed x := fun x => by rw [Backed, Backed, he.backing]
    rw [he.used, he.unused]
    exact hi.toPartition.congr hR
  owned := (owned_of_taken hvm hi he.taken he.mem).1
  nodup := by
    have hold := nodup_append.mp hi.nodup
    rw [intoVmChunks, nodup_append, he.backing]
    refine ⟨intoIter_nodup _, hold.2.1, fun d hd e hee heq => ?_⟩
    rcases (he.external d).mp (mem_intoIter.mp hd) with rfl | hd
    · exact fresh hvm he.taken (hi.owned e (mem_intoVmChunks.mpr (.inr hee))) heq.symm
    · exact hold.2.2 d (mem_intoIter.mpr hd) e hee heq

theorem frame (hvm : vm.Inv A) (hi : h.Inv vm) (he : External vm vm' h h' c a) :
    Frame vm vm' h.intoVmChunks h'.intoVmChunks :=
  (owned_of_taken hvm hi he.taken he.mem).2

end External

theorem allocExternal_spec (hvm : vm.Inv A) (hi : h.Inv vm) (hpos : 0 < size) (hlt : size < 2 ^ 32) :
    h.allocExternal vm size = .error .sizeNotPageMultiple ∨ h.allocExternal vm size = .ok (none, h, vm) ∨
      ∃ c a h' vm', h.allocExternal vm size = .ok (some a, h', vm') ∧ a.size.get = pageUp size ∧ External vm vm' h h' c a := by
  by_cases hn : size ≤ 2 ^ 32 - pageSize
  · right
    rcases allocate_none_spec hvm hpos hn with ⟨heq, -⟩ | ⟨c, a, vm', heq, hsz, ht⟩
    · exact .inl (by simp [allocExternal, heq])
    · right
      have hfr := fun d hd =>
        (ht.apart_used hvm.toPartition (hi.owned d (mem_intoVmChunks.mpr (.inl hd)))).base_ne
      obtain ⟨m, hm, hmem⟩ := insert_ok hfr
      refine ⟨c, a, { h with externalChunks := m }, vm', ?_, hsz, ht, hmem, rfl, rfl, rfl⟩
      simp [allocExternal, heq, hm]
  · left
    have hpn : vm.allocate none size = .error .sizeNotPageMultiple := allocate_none_panics hlt (Nat.lt_of_not_le hn)
    simp [allocExternal, hpn]

structure Grown (vm vm' : VMAllocator) (h h' : HeapAllocator) (c b : Chunk) : Prop where
  taken : vm.Taken vm' c b
  unused : ∀ d, d ∈ h'.unusedChunks.chunks ↔ d = b ∨ d ∈ h.unusedChunks.chunks
  partition : Partition minChunkSize (fun x => h.Backed x ∨ b.Has x) h'.usedChunks h'.unusedChunks
  used : h'.usedChunks = h.usedChunks
  external : h'.externalChunks = h.externalChunks
  backing : h'.backingChunks = h.backingChunks ++ [b]

namespace Grown

theorem mem (hg : Grown vm vm' h h' c b) (d : Chunk) : d ∈ h'.intoVmChunks ↔ d = b ∨ d ∈ h.intoVmChunks := by
  rw [mem_intoVmChunks, mem_intoVmChunks, hg.external, hg.backing, mem_append, mem_singleton, ← or_assoc, or_comm]

theorem backed (hg : Grown vm vm' h h' c b) (x : Nat) : h'.Backed x ↔ h.Backed x ∨ b.Has x := by
  simp [Backed, hg.backing]

theorem inv (hvm : vm.Inv A) (hi : h.Inv vm) (hg : Grown vm vm' h h' c b) : h'.Inv vm' where
  toPartition := hg.partition.congr fun x => (hg.backed x).symm
  owned := (owned_of_taken hvm hi hg.taken hg.mem).1
  nodup := by
    rw [intoVmChunks, hg.external, hg.backing, ← append_assoc, nodup_append]
    refine ⟨hi.nodup, nodup_singleton b, fun d hd e he heq => ?_⟩
    rw [mem_singleton.mp he] at heq
    exact fresh hvm hg.taken (hi.owned d hd) heq

theorem frame (hvm : vm.Inv A) (hi : h.Inv vm) (hg : Grown vm vm' h h' c b) : Frame vm vm' h.intoVmChunks h'.intoVmChunks :=
  (owned_of_taken hvm hi hg.taken hg.mem).2

end Grown

theorem aligned_of_taken (ht : vm.Taken vm' c a) : Aligned minChunkSize a :=
  have hdvd : minChunkSize ∣ pageSize := by decide
  ⟨ht.aligned.fits, Nat.dvd_trans hdvd ht.aligned.dvd_base, Nat.dvd_trans hdvd ht.aligned.dvd_hi⟩

theorem not_backed_of_taken (hvm : vm.Inv A) (hi : h.Inv vm) (ht : vm.Taken vm' c a) {x : Nat} (hx : a.Has x) :
    ¬h.Backed x := fun ⟨b, hb, hbx⟩ =>
  Chunk.apart_iff.mp (ht.apart_used hvm.toPartition (hi.owned b (mem_intoVmChunks.mpr (.inr hb)))) x hbx hx

theorem size_lt_of_taken (hvm : vm.Inv A) (ht : vm.Taken vm' c a) : a.size.get < 2 ^ 32 := by
  have hc := hvm.holds_unused ht.mem
  have ha : A.Holds a := ⟨Nat.le_trans hc.1 ht.within.1, Nat.le_trans ht.within.2 hc.2⟩
  exact ha.size_lt

theorem grow_spec (hvm : vm.Inv A) (hi : h.Inv vm) : h.grow vm = .error .heapMemory ∨
      ∃ c b h' vm', h.grow vm = .ok (h', vm') ∧ b.size.get = heapChunkSize ∧ Grown vm vm' h h' c b := by
  have hup : pageUp heapChunkSize = heapChunkSize := pageUp_of_dvd (by decide)
  rcases allocate_none_spec hvm (n := heapChunkSize) (by decide) (by decide) with
    ⟨heq, -⟩ | ⟨c, b, vm', heq, hsz, ht⟩
  · exact .inl (by simp [grow, heq])
  · obtain ⟨u, hu, hum, hprt⟩ := hi.extend (aligned_of_taken ht) (size_lt_of_taken hvm ht)
      fun x hx => not_backed_of_taken hvm hi ht hx
    exact .inr ⟨c, b, { h with unusedChunks := u, backingChunks := h.backingChunks ++ [b] }, vm',
      by simp [grow, heq, hu], hsz.trans hup, ht, hum, hprt, rfl, rfl, rfl⟩

/-- `a` was cut out of the unused chunk `c` of the heap and is now used. -/
structure Inside (h h' : HeapAllocator) (c a : Chunk) : Prop where
  moved : Moved minChunkSize h.usedChunks h.unusedChunks h'.usedChunks h'.unusedChunks c a
  external : h'.externalChunks = h.externalChunks
  backing : h'.backingChunks = h.backingChunks

namespace Inside

theorem intoVmChunks_eq (hin : Inside h h' c a) : h'.intoVmChunks = h.intoVmChunks := by
  rw [intoVmChunks, intoVmChunks, hin.external, hin.backing]

theorem inv (hi : h.Inv vm) (hin : Inside h h' c a) : h'.Inv vm where
  toPartition := (hin.moved.partition hi.toPartition).congr fun x => by rw [Backed, Backed, hin.backing]
  owned := hin.intoVmChunks_eq ▸ hi.owned
  nodup := hin.intoVmChunks_eq ▸ hi.nodup

end Inside

theorem allocUnused_spec (hi : h.Inv vm) (hdvd : minChunkSize ∣ size) (hle : minChunkSize ≤ size)
    (hlt : size < 2 ^ 32) :
    (h.allocUnused size = .ok (none, h) ∧ ∀ d ∈ h.unusedChunks.chunks, d.size.get < size) ∨
      ∃ c a h', h.allocUnused size = .ok (some a, h') ∧ a.size.get = size ∧ Inside h h' c a := by
  rcases hi.allocate_spec hdvd hle hlt with ⟨hnn, hsl⟩ | ⟨c, a, u, m, hso, hins, -, hsz, hmo⟩
  · exact .inl ⟨by simp [allocUnused, hnn], hsl⟩
  · exact .inr ⟨c, a, { h with unusedChunks := u, usedChunks := m }, by simp [allocUnused, hso, hins], hsz, hmo, rfl, rfl⟩

end

/-- The ways an allocation of a rounded size can return: with nothing, from the allocator of pages, from the
    unused chunks of the heap, or from those after the heap has grown. -/
inductive Allocated (vm : VMAllocator) (h : HeapAllocator) (size : Nat) :
    Option Chunk → HeapAllocator → VMAllocator → Prop where
  | refused (large : heapAllocationThreshold < size) : Allocated vm h size none h vm
  | external {h' : HeapAllocator} {vm' : VMAllocator} {c a : Chunk} (large : heapAllocationThreshold < size)
      (size_eq : a.size.get = pageUp size) (step : External vm vm' h h' c a) : Allocated vm h size (some a) h' vm'
  | inside {h' : HeapAllocator} {c a : Chunk} (small : size ≤ heapAllocationThreshold) (size_eq : a.size.get = size)
      (step : Inside h h' c a) : Allocated vm h size (some a) h' vm
  | grown {h₁ h' : HeapAllocator} {vm' : VMAllocator} {b c₁ c a : Chunk} (small : size ≤ heapAllocationThreshold)
      (size_eq : a.size.get = size) (grow : Grown vm vm' h h₁ c₁ b) (step : Inside h₁ h' c a) :
      Allocated vm h size (some a) h' vm'

section
variable {A : Arena} {vm vm' : VMAllocator} {h h' : HeapAllocator} {o : Option Chunk}

/-- An allocation stops for want of memory or returns in one of the ways above. -/
theorem alloc_spec (hvm : vm.Inv A) (hi : h.Inv vm) (hlt : size < 2 ^ 32) :
    (∃ p, h.alloc vm size = .error p ∧ Exhausted p) ∨
      ∃ o h' vm', h.alloc vm size = .ok (o, h', vm') ∧ size ≤ allocSize size ∧ Allocated vm h (allocSize size) o h' vm' := by
  unfold alloc
  rcases allocSize_spec hlt with ⟨hdvd, hle, hsz, hge, -⟩ | hzr
  · by_cases hbig : allocSize size > heapAllocationThreshold
    · simp only [if_pos hbig]
      rcases allocExternal_spec hvm hi (Nat.lt_of_lt_of_le (by decide) hle) hsz with heq | heq | ⟨c, a, h', vm', heq, hs, he⟩
      · exact .inl ⟨_, heq, by simp [Exhausted]⟩
      · exact .inr ⟨none, h, vm, heq, hge, .refused hbig⟩
      · exact .inr ⟨some a, h', vm', heq, hge, .external hbig hs he⟩
    · simp only [if_neg hbig]
      have hth := Nat.le_of_not_lt hbig
      rcases allocUnused_spec hi hdvd hle hsz with ⟨heq, -⟩ | ⟨c, a, h', heq, hs, hin⟩
      · rcases grow_spec hvm hi with hg | ⟨c₁, b, h₁, vm', hg, hb, hgro⟩
        · exact .inl ⟨.heapMemory, by simp [heq, hg], by simp [Exhausted]⟩
        · -- The new backing chunk is large enough, so the second search finds something.
          rcases allocUnused_spec (hgro.inv hvm hi) hdvd hle hsz with ⟨-, hnn⟩ | ⟨c, a, h', heq', hs, hin⟩
          · have hb' := hnn b ((hgro.unused b).mpr (.inl rfl))
            rw [hb] at hb'
            exact absurd (Nat.lt_of_lt_of_le hb' hth) (by decide)
          · exact .inr ⟨some a, h', vm', by simp [heq, hg, heq'], hge, .grown hth hs hgro hin⟩
      · exact .inr ⟨some a, h', vm, by simp [heq], hge, .inside hth hs hin⟩
  · refine .inl ⟨.requestBelowMinimum, ?_, by simp [Exhausted]⟩
    have hmin : 0 < h.unusedChunks.minChunkSize := by
      rw [hi.min]
      decide
    have hnot : ¬0 > heapAllocationThreshold := by decide
    simp [hzr, allocUnused, SizeBucketedChunkMap.allocate, if_pos hmin]

theorem Allocated.inv (hvm : vm.Inv A) (hi : h.Inv vm) (ha : Allocated vm h size o h' vm') :
    vm'.Inv A ∧ h'.Inv vm' ∧ Frame vm vm' h.intoVmChunks h'.intoVmChunks := by
  cases ha with
  | refused => exact ⟨hvm, hi, .refl _ _⟩
  | external _ _ he => exact ⟨he.taken.inv hvm, he.inv hvm hi, he.frame hvm hi⟩
  | inside _ _ hin => exact ⟨hvm, hin.inv hi, hin.intoVmChunks_eq ▸ .refl _ _⟩
  | grown _ _ hg hin =>
    exact ⟨hg.taken.inv hvm, hin.inv (hg.inv hvm hi), hin.intoVmChunks_eq ▸ hg.frame hvm hi⟩

theorem valloc_spec (hvm : vm.Inv A) (hi : h.Inv vm) (hlt : size < 2 ^ 32) :
    (∃ p, h.valloc vm size = .error p ∧ Exhausted p) ∨ h.valloc vm size = .ok (none, h, vm) ∨
      ∃ c a h' vm', h.valloc vm size = .ok (some a, h', vm') ∧ a.size.get = pageUp size ∧ External vm vm' h h' c a := by
  unfold valloc
  by_cases hzr : size = 0
  · exact .inl ⟨.vallocZero, if_pos hzr, by simp [Exhausted]⟩
  · simp only [if_neg hzr]
    have hpos : 0 < size := Nat.pos_of_ne_zero hzr
    by_cases hfit : size ≤ 2 ^ 32 - pageSize
    · have hup := pageUp_lt_iff.mpr hfit
      have hup_pos : 0 < pageUp size := Nat.lt_of_lt_of_le hpos (le_pageUp size)
      rw [nextMultipleOf_of_fits hup]
      rcases allocExternal_spec hvm hi hup_pos hup with heq | heq | ⟨c, a, h', vm', heq, hs, he⟩
      · exact .inl ⟨_, heq, by simp [Exhausted]⟩
      · exact .inr (.inl heq)
      · exact .inr (.inr ⟨c, a, h', vm', heq, hs.trans (pageUp_of_dvd (pageSize_dvd_pageUp size)), he⟩)
    · refine .inl ⟨.sizeNotPageMultiple, ?_, by simp [Exhausted]⟩
      rw [nextMultipleOf_of_wraps hlt (Nat.lt_of_not_le hfit), allocExternal]
      rfl

end

/-- A neighbour of `f` was taken out of the unused chunks, the one after it or else the one before it. -/
structure Adjacent (b b' : SizeBucketedChunkMap) (f : Chunk) (o : Option Chunk) : Prop where
  dropped : b.Dropped b' (fun c => o = some c) o
  adjacent : ∀ c, o = some c → c.hi = f.base ∨ c.base = f.hi
  after : ∀ c ∈ b.chunks, c.base = f.hi → o = some c
  before : (∀ c ∈ b.chunks, c.base ≠ f.hi) → ∀ c ∈ b.chunks, c.hi = f.base → o = some c

theorem takeAdjacent_spec {b} {f} (hb : b.Good) (hf : f.hi ≤ 2 ^ 32)
    (htop : f.hi = 2 ^ 32 → ∀ c ∈ b.chunks, c.base ≠ 0) : ∃ o b', takeAdjacent b f = .ok (o, b') ∧ Adjacent b b' f o := by
  obtain ⟨o₁, b₁, h₁, hd₁⟩ := SizeBucketedChunkMap.removeAfter_spec hb hf htop
  cases o₁ with
  | some c =>
    have hiff : ∀ d ∈ b.chunks, d.base = f.hi ↔ some c = some d := fun d hd =>
      ⟨fun hdb => (hd₁.found d).mpr ⟨hd, hdb⟩, fun heq => ((hd₁.found d).mp heq).2⟩
    refine ⟨some c, b₁, by simp [takeAdjacent, h₁], ?_, ?_, ?_, ?_⟩
    · exact ⟨hd₁.good, hd₁.min, fun d => ⟨fun heq => ⟨((hd₁.found d).mp heq).1, heq⟩, And.right⟩,
        fun d => (hd₁.chunks d).trans (and_congr_right fun hd => not_congr (hiff d hd))⟩
    · exact fun d heq => .inr ((hd₁.found d).mp heq).2
    · exact fun d hd hdb => (hiff d hd).mp hdb
    · intro hno
      exact absurd ((hd₁.found c).mp rfl).2 (hno c ((hd₁.found c).mp rfl).1)
  | none =>
    have hno : ∀ d ∈ b.chunks, d.base ≠ f.hi := fun d hd hdb => nomatch (hd₁.found d).mpr ⟨hd, hdb⟩
    have hsm := fun d =>
      (hd₁.chunks d).trans (and_iff_left_of_imp fun hd => hno d hd)
    obtain ⟨o₂, b₂, h₂, hd₂⟩ := SizeBucketedChunkMap.removeBefore_spec hd₁.good hf
    have hiff : ∀ d ∈ b.chunks, d.hi = f.base ↔ o₂ = some d := fun d hd =>
      ⟨fun hdh => (hd₂.found d).mpr ⟨(hsm d).mpr hd, hdh⟩, fun heq => ((hd₂.found d).mp heq).2⟩
    refine ⟨o₂, b₂, by simp [takeAdjacent, h₁, h₂], ?_, ?_, ?_, ?_⟩
    · refine ⟨hd₂.good, hd₂.min.trans hd₁.min, fun d => ?_, fun d => ?_⟩
      · exact ⟨fun heq => ⟨(hsm d).mp ((hd₂.found d).mp heq).1, heq⟩, And.right⟩
      · rw [hd₂.chunks, hsm]
        exact and_congr_right fun hd => not_congr (hiff d hd)
    · exact fun d heq => .inl ((hd₂.found d).mp heq).2
    · exact fun d hd hdb => absurd hdb (hno d hd)
    · exact fun _ d hd hdh => (hiff d hd).mp hdh

/-- The used chunk `f` was given back to the unused ones, as the part of `m` that the neighbour `o` leaves. -/
structure Merged (h h' : HeapAllocator) (f m : Chunk) (o : Option Chunk) : Prop where
  mem : f ∈ h.usedChunks
  returned : Returned minChunkSize h.usedChunks h.unusedChunks h'.usedChunks h'.unusedChunks f
  used : ∀ d, d ∈ h'.usedChunks ↔ d ∈ h.usedChunks ∧ d ≠ f
  unused : ∀ d, d ∈ h'.unusedChunks.chunks ↔ d = m ∨ (d ∈ h.unusedChunks.chunks ∧ o ≠ some d)
  found : ∀ c, o = some c → c ∈ h.unusedChunks.chunks
  joined : SizeBucketedChunkMap.Joined f m o
  after : ∀ c ∈ h.unusedChunks.chunks, c.base = f.hi → o = some c
  before : (∀ c ∈ h.unusedChunks.chunks, c.base ≠ f.hi) → ∀ c ∈ h.unusedChunks.chunks, c.hi = f.base → o = some c
  external : h'.externalChunks = h.externalChunks
  backing : h'.backingChunks = h.backingChunks

structure GivenBack (vm vm' : VMAllocator) (h h' : HeapAllocator) (f : Chunk) : Prop where
  mem : f ∈ h.externalChunks
  deallocated : vm.deallocate f.base f.size.get = .ok (f, vm')
  external : ∀ d, d ∈ h'.externalChunks ↔ d ∈ h.externalChunks ∧ d ≠ f
  used : h'.usedChunks = h.usedChunks
  unused : h'.unusedChunks = h.unusedChunks
  backing : h'.backingChunks = h.backingChunks

inductive Released (vm : VMAllocator) (h : HeapAllocator) (base : Nat) : Nat → HeapAllocator → VMAllocator → Prop where
  | external {f : Chunk} {h' : HeapAllocator} {vm' : VMAllocator} (at_base : f.base = base)
      (step : GivenBack vm vm' h h' f) : Released vm h base f.size.get h' vm'
  | inside {f m : Chunk} {o : Option Chunk} {h' : HeapAllocator} (at_base : f.base = base)
      (step : Merged h h' f m o) : Released vm h base f.size.get h' vm
  | unknown (hext : ∀ d ∈ h.externalChunks, d.base ≠ base) (hused : ∀ d ∈ h.usedChunks, d.base ≠ base) :
      Released vm h base 0 h vm

section
variable {A : Arena} {vm vm' : VMAllocator} {h h' : HeapAllocator} {f m : Chunk} {o : Option Chunk}

theorem Inv.holds (hvm : vm.Inv A) (hi : h.Inv vm) (hc : f ∈ h.usedChunks ∨ f ∈ h.unusedChunks.chunks) : A.Holds f := by
  refine Arena.holds_of_forall fun x hx => ?_
  have hbc : h.Backed x := by
    rcases hc with hc | hc
    · exact hi.of_used hc hx
    · exact hi.of_unused hc hx
  obtain ⟨b, hb, hbx⟩ := hbc
  exact hvm.of_used (hi.owned b (mem_intoVmChunks.mpr (.inr hb))) hbx

theorem free_inside (hvm : vm.Inv A) (hi : h.Inv vm) (hf : f ∈ h.usedChunks)
    (hext : ∀ d ∈ h.externalChunks, d.base ≠ f.base) :
    ∃ m o h', h.free vm f.base = .ok (f.size.get, h', vm) ∧ Merged h h' f m o := by
  have hfA := hi.holds hvm (.inl hf)
  have hfit := hi.used.fits f hf
  have hlen := A.len_lt
  obtain ⟨u, hu, hum⟩ := removeWithBase_of_mem hf
  obtain ⟨o, b', htk, hadj⟩ := takeAdjacent_spec hi.unused hfit fun htop c hc hzr => by
    have hcA := hi.holds hvm (.inr hc)
    unfold Arena.Holds at hcA hfA
    omega
  have hmin := hi.min
  obtain ⟨m, hm, habs, hjoi⟩ := hadj.dropped.merge hi.unused hadj.adjacent (hmin ▸ hi.used.aligned hf)
    (fun d hd => (hi.apart f hf d hd).symm)
    (fun d hd => size_add_lt hfA (hi.holds hvm (.inr hd)) (hi.apart f hf d hd).symm)
  have hmA : A.Holds m := by
    cases o with
    | none =>
      obtain rfl : m = f := hjoi
      exact hfA
    | some c =>
      have hcA := hi.holds hvm (.inr ((hadj.dropped.found c).mp rfl).1)
      rcases hjoi with ⟨-, hb, hh⟩ | ⟨-, hb, hh⟩
      · exact ⟨hb ▸ hcA.1, hh ▸ hfA.2⟩
      · exact ⟨hb ▸ hfA.1, hh ▸ hcA.2⟩
  obtain ⟨v, hv, hvgd, hvmn, hvmm, hvhs⟩ := habs.insert_ok hmA.size_lt
  refine ⟨m, o, { h with usedChunks := u, unusedChunks := v }, ?_, hf, ?_, hum, ?_, ?_, hjoi, hadj.after, hadj.before,
    rfl, rfl⟩
  · have hnn := removeWithBase_of_not hext
    cases o with
    | none =>
      obtain rfl : m = f := hjoi
      simp [free, hnn, hu, htk, hv]
    | some c =>
      have hm' : c.merge f = .ok m := Chunk.merge_comm c f ▸ hm
      simp [free, hnn, hu, htk, hm', hv]
  · exact ⟨hfit, hi.used.mono fun d hd => ((hum d).mp hd).1,
      fun d => (hum d).trans (mem_pieces_self_iff hi.used hf).symm, hvgd, hvmn.trans hmin, hvhs⟩
  · intro d
    rw [hvmm, hadj.dropped.chunks]
  · exact fun c hc => ((hadj.dropped.found c).mp hc).1

theorem free_spec (hvm : vm.Inv A) (hi : h.Inv vm) (base : Nat) :
    ∃ n h' vm', h.free vm base = .ok (n, h', vm') ∧ Released vm h base n h' vm' := by
  by_cases hext : ∃ f ∈ h.externalChunks, f.base = base
  · obtain ⟨f, hf, rfl⟩ := hext
    obtain ⟨e, he, hemm⟩ := removeWithBase_of_mem hf
    obtain ⟨vm', hfr, -⟩ := deallocate_used hvm (hi.owned f (mem_intoVmChunks.mpr (.inl hf)))
    refine ⟨_, { h with externalChunks := e }, vm', ?_, .external rfl ⟨hf, hfr, hemm, rfl, rfl, rfl⟩⟩
    simp [free, he, hfr]
  · have hext := fun d hd heq => hext ⟨d, hd, heq⟩
    by_cases hus : ∃ f ∈ h.usedChunks, f.base = base
    · obtain ⟨f, hf, rfl⟩ := hus
      obtain ⟨m, o, h', heq, hmrg⟩ := free_inside hvm hi hf hext
      exact ⟨_, h', vm, heq, .inside rfl hmrg⟩
    · have hus := fun d hd heq => hus ⟨d, hd, heq⟩
      refine ⟨0, h, vm, ?_, .unknown hext hus⟩
      simp [free, removeWithBase_of_not hext, removeWithBase_of_not hus]

theorem Merged.intoVmChunks_eq (hm : Merged h h' f m o) : h'.intoVmChunks = h.intoVmChunks := by
  rw [intoVmChunks, intoVmChunks, hm.external, hm.backing]

theorem Merged.inv (hi : h.Inv vm) (hm : Merged h h' f m o) : h'.Inv vm where
  toPartition := (hm.returned.partition hi.toPartition fun x hx => hi.of_used hm.mem hx).congr fun x => by
    rw [Backed, Backed, hm.backing]
  owned := hm.intoVmChunks_eq ▸ hi.owned
  nodup := hm.intoVmChunks_eq ▸ hi.nodup

namespace GivenBack

section
variable (hvm : vm.Inv A) (hi : h.Inv vm) (hg : GivenBack vm vm' h h' f)
include hvm hi hg

theorem vm_spec : vm.Freed vm' f ∧ vm'.Inv A ∧ ∀ d, d ∈ vm'.usedChunks ↔ d ∈ vm.usedChunks ∧ d ≠ f := by
  obtain ⟨t, ht, hspc⟩ := deallocate_used hvm (hi.owned f (mem_intoVmChunks.mpr (.inl hg.mem)))
  rw [hg.deallocated] at ht
  cases ht
  exact hspc

omit hvm hi hg in
theorem mem_iff (hi : h.Inv vm) (hg : GivenBack vm vm' h h' f) (d : Chunk) :
    d ∈ h'.intoVmChunks ↔ d ∈ h.intoVmChunks ∧ d ≠ f := by
  have hnot : f ∉ h.backingChunks := fun hb =>
    (nodup_append.mp hi.nodup).2.2 f (mem_intoIter.mpr hg.mem) f hb rfl
  rw [mem_intoVmChunks, mem_intoVmChunks, hg.external, hg.backing]
  constructor
  · rintro (⟨hd, hne⟩ | hd)
    · exact ⟨.inl hd, hne⟩
    · exact ⟨.inr hd, fun heq => hnot (heq ▸ hd)⟩
  · rintro ⟨hd | hd, hne⟩
    · exact .inl ⟨hd, hne⟩
    · exact .inr hd

theorem inv : h'.Inv vm' where
  toPartition := by
    have hR : ∀ x, h.Backed x ↔ h'.Backed x := fun x => by rw [Backed, Backed, hg.backing]
    rw [hg.used, hg.unused]
    exact hi.toPartition.congr hR
  owned := fun d hd => by
    obtain ⟨hd, hne⟩ := (hg.mem_iff hi d).mp hd
    exact ((hg.vm_spec hvm hi).2.2 d).mpr ⟨hi.owned d hd, hne⟩
  nodup := by
    have hold := nodup_append.mp hi.nodup
    rw [intoVmChunks, nodup_append, hg.backing]
    refine ⟨intoIter_nodup _, hold.2.1, fun d hd => hold.2.2 d ?_⟩
    exact mem_intoIter.mpr ((hg.external d).mp (mem_intoIter.mp hd)).1

theorem frame : Frame vm vm' h.intoVmChunks h'.intoVmChunks := fun d hd hdl =>
  have hne : d ≠ f := fun heq => hdl (heq ▸ mem_intoVmChunks.mpr (.inl hg.mem))
  ⟨((hg.vm_spec hvm hi).2.2 d).mpr ⟨hd, hne⟩, fun hd' => hdl ((hg.mem_iff hi d).mp hd').1⟩

end
end GivenBack

theorem Released.inv {base n : Nat} (hvm : vm.Inv A) (hi : h.Inv vm) (hr : Released vm h base n h' vm') :
    vm'.Inv A ∧ h'.Inv vm' ∧ Frame vm vm' h.intoVmChunks h'.intoVmChunks := by
  cases hr with
  | external _ hg => exact ⟨(hg.vm_spec hvm hi).2.1, hg.inv hvm hi, hg.frame hvm hi⟩
  | inside _ hm => exact ⟨hvm, hm.inv hi, hm.intoVmChunks_eq ▸ .refl _ _⟩
  | unknown => exact ⟨hvm, hi, .refl _ _⟩

end

/-! ### new and destruction -/

section
variable {A : Arena} {vm : VMAllocator}

inductive Created (vm : VMAllocator) : Nat → HeapAllocator → VMAllocator → Prop where
  | empty : Created vm 0 ⟨.empty, .new minChunkSize, .empty, []⟩ vm
  | backed {size : Nat} {vm' : VMAllocator} {c b : Chunk} {u : SizeBucketedChunkMap} (taken : vm.Taken vm' c b)
      (size_eq : b.size.get = pageUp size) (unused : ∀ d, d ∈ u.chunks ↔ d = b)
      (partition : Partition minChunkSize b.Has .empty u) : Created vm size ⟨.empty, u, .empty, [b]⟩ vm'

theorem new_spec (hvm : vm.Inv A) (hlt : size < 2 ^ 32) : (∃ p, new vm size = .error p ∧ Exhausted p) ∨
      ∃ h vm', new vm size = .ok (h, vm') ∧ Created vm size h vm' := by
  by_cases hpos : size > 0
  · by_cases hfit : size ≤ 2 ^ 32 - pageSize
    · rcases allocate_none_spec hvm hpos hfit with ⟨heq, -⟩ | ⟨c, b, vm', heq, hsz, ht⟩
      · refine .inl ⟨.heapSpace, ?_, by simp [Exhausted]⟩
        simp [new, if_pos hpos, heq]
      · obtain ⟨u, hu, hum, hprt⟩ := (Partition.new (by decide) (by decide)).extend (aligned_of_taken ht)
          (size_lt_of_taken hvm ht) fun _ _ => id
        refine .inr ⟨⟨.empty, u, .empty, [b]⟩, vm', ?_, .backed ht hsz
          (fun d => (hum d).trans (or_iff_left (not_mem_empty d))) (hprt.congr fun x => iff_of_eq (false_or _))⟩
        simp [new, if_pos hpos, heq, hu]
    · refine .inl ⟨.sizeNotPageMultiple, ?_, by simp [Exhausted]⟩
      have hpn : vm.allocate none size = .error .sizeNotPageMultiple := allocate_none_panics hlt (Nat.lt_of_not_le hfit)
      simp [new, if_pos hpos, hpn]
  · obtain rfl : size = 0 := by omega
    exact .inr ⟨_, vm, rfl, .empty⟩

namespace Created
variable {vm' : VMAllocator} {h : HeapAllocator}

theorem vmInv (hvm : vm.Inv A) (hc : Created vm size h vm') : vm'.Inv A := by
  cases hc with
  | empty => exact hvm
  | backed ht => exact ht.inv hvm

theorem intoVmChunks_eq (hc : Created vm size h vm') : h.intoVmChunks = h.backingChunks := by
  cases hc <;> rfl

theorem inv (hc : Created vm size h vm') : h.Inv vm' := by
  have hchn := hc.intoVmChunks_eq
  cases hc with
  | empty =>
    refine ⟨(Partition.new (by decide) (by decide)).congr fun x => ?_, ?_, ?_⟩
    · simp [Backed]
    · rw [hchn]
      exact nofun
    · rw [hchn]
      exact nodup_nil
  | backed ht _ _ hprt =>
    refine ⟨hprt.congr fun x => by simp [Backed], ?_, ?_⟩
    · rw [hchn]
      exact fun d hd => (ht.used d).mpr (.inl (mem_singleton.mp hd))
    · rw [hchn]
      exact nodup_singleton _

theorem frame (hvm : vm.Inv A) (hc : Created vm size h vm') : Frame vm vm' [] h.intoVmChunks := by
  cases hc with
  | empty => exact .refl _ _
  | backed ht =>
    exact fun d hd _ => ⟨(ht.used d).mpr (.inr hd), fun hd' => fresh hvm ht hd (mem_singleton.mp hd')⟩

end Created

def giveBack (vm : VMAllocator) (chunks : List Chunk) : Except Panic VMAllocator :=
  chunks.foldlM (fun vm c => do return (← vm.deallocate c.base c.size.get).2) vm

theorem giveBack_spec : ∀ {l : List Chunk} {vm : VMAllocator}, vm.Inv A → l.Nodup → (∀ c ∈ l, c ∈ vm.usedChunks) →
    ∃ vm', giveBack vm l = .ok vm' ∧ vm'.Inv A ∧ ∀ d, d ∈ vm'.usedChunks ↔ d ∈ vm.usedChunks ∧ d ∉ l
  | [], vm, hvm, _, _ => ⟨vm, rfl, hvm, fun d => by simp⟩
  | c :: l, vm, hvm, hnd, hown => by
    obtain ⟨hc, hnd⟩ := nodup_cons.mp hnd
    obtain ⟨vm₁, hfr, -, hvm₁, hus₁⟩ := deallocate_used hvm (hown c mem_cons_self)
    have hown₁ : ∀ d ∈ l, d ∈ vm₁.usedChunks := fun d hd =>
      (hus₁ d).mpr ⟨hown d (mem_cons_of_mem c hd), fun heq => hc (heq ▸ hd)⟩
    obtain ⟨vm', hl, hvm', hus'⟩ := giveBack_spec hvm₁ hnd hown₁
    refine ⟨vm', ?_, hvm', fun d => ?_⟩
    · rw [giveBack, foldlM_cons, hfr]
      exact hl
    · rw [hus', hus₁, mem_cons, not_or, and_assoc]

end
end HeapAllocator
end TouchHLE.Mem
