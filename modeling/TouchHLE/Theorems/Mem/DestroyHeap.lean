import TouchHLE.Theorems.Mem.Memory

/-! The pages in use are those of the heaps and those that `vm_alloc` handed out, after every interleaving of the requests,
    so the destruction of a heap gives back what that heap took and nothing else. -/

namespace TouchHLE.Mem
open Lib List Function HeapAllocator

namespace HeapAllocator
variable {A : Arena} {vm vm' : VMAllocator} {h h' : HeapAllocator} {c a f : Chunk} {l l' : List Chunk}

theorem frame_back_of_taken (ht : vm.Taken vm' c a) (hmem : ∀ d, d ∈ l' ↔ d = a ∨ d ∈ l) : Frame vm' vm l' l := by
  intro d hd hdl
  rw [hmem, not_or] at hdl
  exact ⟨((ht.used d).mp hd).resolve_left hdl.1, hdl.2⟩

theorem Allocated.frame_back {size : Nat} {o} (ha : Allocated vm h size o h' vm') :
    Frame vm' vm h'.intoVmChunks h.intoVmChunks := by
  cases ha with
  | refused => exact .refl _ _
  | external _ _ he => exact frame_back_of_taken he.taken he.mem
  | inside _ _ hin => exact hin.intoVmChunks_eq ▸ .refl _ _
  | grown _ _ hg hin => exact hin.intoVmChunks_eq ▸ frame_back_of_taken hg.taken hg.mem

theorem GivenBack.frame_back (hvm : vm.Inv A) (hi : h.Inv vm) (hg : GivenBack vm vm' h h' f) :
    Frame vm' vm h'.intoVmChunks h.intoVmChunks := by
  intro d hd hdl
  obtain ⟨hus, hne⟩ := ((hg.vm_spec hvm hi).2.2 d).mp hd
  exact ⟨hus, fun hmem => hdl ((hg.mem_iff hi d).mpr ⟨hmem, hne⟩)⟩

theorem Released.frame_back {base n : Nat} (hvm : vm.Inv A) (hi : h.Inv vm) (hr : Released vm h base n h' vm') :
    Frame vm' vm h'.intoVmChunks h.intoVmChunks := by
  cases hr with
  | external _ hg => exact hg.frame_back hvm hi
  | inside _ hm => exact hm.intoVmChunks_eq ▸ .refl _ _
  | unknown => exact .refl _ _

theorem Created.frame_back {size : Nat} (hc : Created vm size h vm') : Frame vm' vm h.intoVmChunks [] := by
  rw [hc.intoVmChunks_eq]
  cases hc with
  | empty => exact .refl _ _
  | backed ht => exact frame_back_of_taken ht fun d => by simp

end HeapAllocator

namespace Heaps
variable {ι : Type} [DecidableEq ι] {A : Arena} {s t : Heaps ι}

/-- The heap `i` was replaced by `o`, which took and gave back pages of its own only. -/
structure Exchanged (s t : Heaps ι) (i : ι) (o : Option HeapAllocator) : Prop where
  eq : t = s.set i o t.vm
  frame : Frame s.vm t.vm (chunksOf (s.heaps i)) (chunksOf o)
  back : Frame t.vm s.vm (chunksOf o) (chunksOf (s.heaps i))

theorem exchanged_some {i : ι} {h h'} {vm} (hi : s.heaps i = some h)
    (hfm : Frame s.vm vm h.intoVmChunks h'.intoVmChunks)
    (hbc : Frame vm s.vm h'.intoVmChunks h.intoVmChunks) :
    Exchanged s (s.set i (some h') vm) i (some h') := by
  refine ⟨rfl, ?_, ?_⟩
  · rw [hi]
    exact hfm
  · rw [hi]
    exact hbc

theorem Did.exchanged (h : Inv A s) {c} {r} (hdid : Did s c r t) :
    t = s ∨ ∃ i o, Exchanged s t i o := by
  cases hdid with
  | skipped => exact .inl rfl
  | @created i size h' vm hab hnew =>
    refine .inr ⟨i, some h', rfl, ?_, ?_⟩
    · rw [hab]
      exact hnew.frame h.vm
    · rw [hab]
      exact hnew.frame_back
  | allocated hi hst =>
    exact .inr ⟨_, _, exchanged_some hi (hst.inv h.vm (h.heap _ _ hi)).2.2 hst.frame_back⟩
  | vallocRefused hi =>
    exact .inr ⟨_, _, exchanged_some hi (.refl _ _) (.refl _ _)⟩
  | vallocated hi hext =>
    exact .inr ⟨_, _, exchanged_some hi (hext.frame h.vm (h.heap _ _ hi)) (frame_back_of_taken hext.taken hext.mem)⟩
  | freed hi hst =>
    have hinv := h.heap _ _ hi
    exact .inr ⟨_, _, exchanged_some hi (hst.inv h.vm hinv).2.2 (hst.frame_back h.vm hinv)⟩
  | @destroyed i h₀ vm hi heq =>
    have hinv := h.heap _ _ hi
    obtain ⟨vm', heq', -, hus⟩ := giveBack_spec h.vm hinv.nodup hinv.owned
    rw [heq] at heq'
    cases heq'
    refine .inr ⟨i, none, rfl, ?_, ?_⟩
    · rw [hi]
      exact fun d hd hdl => ⟨(hus d).mpr ⟨hd, hdl⟩, not_mem_nil⟩
    · rw [hi]
      exact fun d hd _ => (hus d).mp hd

end Heaps

/-- Freeing used chunks one after the other returns, and does to the allocator of pages what `giveBack` does: the
    memory that is zeroed ends before the end of the address space. -/
theorem vmFree_all {A} : ∀ {l : List Chunk} {mem : Mem}, mem.vmAllocator.Inv A → l.Nodup →
    (∀ c ∈ l, c ∈ mem.vmAllocator.usedChunks) →
    ∃ mem', l.foldlM (fun self chunk => self.vmFree chunk.base chunk.size.get) mem = .ok mem' ∧
      giveBack mem.vmAllocator l = .ok mem'.vmAllocator
  | [], mem, _, _, _ => ⟨mem, rfl, rfl⟩
  | c :: l, mem, hvm, hnd, hown => by
    obtain ⟨hc, hnd⟩ := nodup_cons.mp hnd
    have hcu := hown c mem_cons_self
    obtain ⟨vm₁, hfr, -, hvm₁, hus₁⟩ := VMAllocator.deallocate_used hvm hcu
    obtain ⟨mem₁, hfll⟩ : ∃ mem₁, { mem with vmAllocator := vm₁ }.fillZero c.base c.size.get = .ok mem₁ := by
      have hfit := (hvm.used.aligned hcu).fits
      exact ⟨_, if_pos hfit⟩
    have hvm_eq : mem₁.vmAllocator = vm₁ := (Memory.fillZero_ok hfll).2.vm
    have hinv₁ : mem₁.vmAllocator.Inv A := hvm_eq ▸ hvm₁
    obtain ⟨mem', hl, hgiv⟩ := vmFree_all hinv₁ hnd fun d hd => by
      rw [hvm_eq]
      exact (hus₁ d).mpr ⟨hown d (mem_cons_of_mem c hd), fun heq => hc (heq ▸ hd)⟩
    refine ⟨mem', ?_, ?_⟩
    · have hst : mem.vmFree c.base c.size.get = .ok mem₁ := by
        simp [Mem.vmFree, hfr, hfll]
      rw [foldlM_cons, hst, ok_bind]
      exact hl
    · rw [giveBack, foldlM_cons, hfr]
      rw [hvm_eq] at hgiv
      exact hgiv

/-- The guest memory and the heaps over its allocator of pages, of which the default heap may be one, with the chunks
    that `vm_alloc` handed out. -/
structure Pages (ι : Type) where
  mem : Mem
  heaps : ι → Option HeapAllocator
  direct : List Chunk

inductive PageCall (ι : Type) where
  | heap (call : HeapCall ι)
  | vmAlloc (address : Option UInt32) (size : UInt32)

inductive PageResult where
  | heap (result : HeapResult)
  | vmAlloc (result : Except VMAllocError Nat)

namespace Pages
variable {ι : Type}

def start (mem : Mem) : Pages ι := ⟨mem, fun _ => none, []⟩

def view (s : Pages ι) : Heaps ι := ⟨s.mem.vmAllocator, s.heaps⟩

/-- The pages that `vm_alloc` took for a request, which it rounds to whole pages. -/
def taken (s : Pages ι) (address : Option UInt32) (size : UInt32) : List Chunk :=
  match s.mem.vmAllocator.allocate (address.map UInt32.toNat) size.toNat with
  | .ok (.ok chunk, _) => [chunk]
  | _ => []

def call [DecidableEq ι] (s : Pages ι) : PageCall ι → Except Panic (PageResult × Pages ι)
  | .heap (.destroy i) =>
    match s.heaps i with
    | none => .ok (.heap .skipped, s)
    | some h => do
      let mem ← s.mem.destroyHeap h
      .ok (.heap .destroyed, { s with mem, heaps := update s.heaps i none })
  | .heap c => do
    let out ← s.view.call c
    .ok (.heap out.1, { s with mem := { s.mem with vmAllocator := out.2.vm }, heaps := out.2.heaps })
  | .vmAlloc address size => do
    let out ← s.mem.vmAlloc (address.map UInt32.toNat) size.toNat
    .ok (.vmAlloc out.1, { s with mem := out.2, direct := s.taken address size ++ s.direct })

def UsedAt (s : Pages ι) (x : Nat) : Prop := s.mem.vmAllocator.usedChunks.Has x

def OwnedAt (s : Pages ι) (i : ι) (x : Nat) : Prop :=
  ∃ h, s.heaps i = some h ∧ ∃ c, (c ∈ h.backingChunks ∨ c ∈ h.externalChunks) ∧ c.Has x

def DirectAt (s : Pages ι) (x : Nat) : Prop := ∃ c ∈ s.direct, c.Has x

/-- Every used chunk of the allocator of pages is owned by a heap or was handed out directly, not both. -/
structure Accounts (A : Arena) (s : Pages ι) : Prop where
  inv : Heaps.Inv A s.view
  used : ∀ d, d ∈ s.mem.vmAllocator.usedChunks ↔ (∃ i h, s.heaps i = some h ∧ d ∈ h.intoVmChunks) ∨ d ∈ s.direct
  apart : ∀ d ∈ s.direct, ∀ i h, s.heaps i = some h → d ∉ h.intoVmChunks

section
variable {A : Arena} {s t : Pages ι} {x : Nat}

theorem ownedAt_iff {i : ι} : s.OwnedAt i x ↔ ∃ h, s.heaps i = some h ∧ ∃ c ∈ h.intoVmChunks, c.Has x := by
  simp [OwnedAt, mem_intoVmChunks, or_comm]

theorem Accounts.usedAt_iff (h : Accounts A s) : s.UsedAt x ↔ (∃ i, s.OwnedAt i x) ∨ s.DirectAt x := by
  simp only [ownedAt_iff]
  constructor
  · rintro ⟨c, hc, hcx⟩
    rcases (h.used c).mp hc with ⟨i, h₁, hi, hc⟩ | hc
    · exact .inl ⟨i, h₁, hi, c, hc, hcx⟩
    · exact .inr ⟨c, hc, hcx⟩
  · rintro (⟨i, h₁, hi, c, hc, hcx⟩ | ⟨c, hc, hcx⟩)
    · exact ⟨c, (h.used c).mpr (.inl ⟨i, h₁, hi, hc⟩), hcx⟩
    · exact ⟨c, (h.used c).mpr (.inr hc), hcx⟩

/-- No address is in pages of two heaps. -/
theorem Accounts.owner_unique (h : Accounts A s) {i j : ι} (hi : s.OwnedAt i x) (hj : s.OwnedAt j x) : i = j := by
  obtain ⟨h₁, hi, c, hc, hcx⟩ := ownedAt_iff.mp hi
  obtain ⟨h₂, hj, d, hd, hdx⟩ := ownedAt_iff.mp hj
  by_contra hne
  exact Chunk.apart_iff.mp (h.inv.owned_apart hi hj hc hd (.inr hne)) x hcx hdx

theorem Accounts.not_directAt (h : Accounts A s) {i : ι} (hi : s.OwnedAt i x) : ¬s.DirectAt x := by
  rintro ⟨d, hd, hdx⟩
  obtain ⟨h₁, hi, c, hc, hcx⟩ := ownedAt_iff.mp hi
  have hcu := (h.used c).mpr (.inl ⟨i, h₁, hi, hc⟩)
  have hdu := (h.used d).mpr (.inr hd)
  obtain rfl : c = d := h.inv.vm.used.eq_of_has hcu hdu hcx hdx
  exact h.apart c hd i h₁ hi hc

theorem accounts_start {mem : Mem} (hnew : VMAllocator.new A.base A.len = .ok mem.vmAllocator) :
    Accounts A (start mem : Pages ι) := by
  have hvm := VMAllocator.inv_new hnew
  refine ⟨⟨hvm, ?_, ?_⟩, fun d => ?_, ?_⟩
  · rintro i h ⟨⟩
  · rintro i j h h' ⟨⟩
  · have hem : mem.vmAllocator.usedChunks = .empty := by
      obtain ⟨c, -, hnew⟩ := bind_eq_ok.mp hnew
      obtain ⟨u, -, hnew⟩ := bind_eq_ok.mp hnew
      exact congrArg VMAllocator.usedChunks (Except.ok.inj hnew).symm
    refine iff_of_false ?_ ?_
    · change d ∉ mem.vmAllocator.usedChunks
      rw [hem]
      exact ChunkMap.not_mem_empty d
    · rintro (⟨i, h, ⟨⟩, -⟩ | hd)
      exact not_mem_nil hd
  · intro d hd
    exact absurd hd not_mem_nil

theorem Accounts.vmAlloc (h : Accounts A s) {address} {size} {r} {mem : Mem}
    (hcl : s.mem.vmAlloc (address.map UInt32.toNat) size.toNat = .ok (r, mem)) :
    Accounts A { s with mem, direct := s.taken address size ++ s.direct } := by
  have had : ∀ a ∈ address.map UInt32.toNat, a < 2 ^ 32 := by
    simp only [Option.mem_def, Option.map_eq_some_iff]
    rintro _ ⟨a, -, rfl⟩
    exact a.toNat_lt
  obtain ⟨⟨r', vm⟩, hal, hcl⟩ := bind_eq_ok.mp hcl
  rcases VMAllocator.allocate_cases h.inv.vm had size.toNat_lt hal with ⟨e, rfl, rfl⟩ | ⟨a, rfl, -, htn⟩
  · cases hcl
    simp only [taken, hal, nil_append]
    exact h
  · obtain ⟨mem₂, hfll, hcl⟩ := bind_eq_ok.mp hcl
    cases hcl
    obtain ⟨hfit, hf⟩ := Memory.fillZero_ok hfll
    obtain ⟨c, ht⟩ := htn hfit
    have hvw : ({ s with mem, direct := [a] ++ s.direct } : Pages ι).view = s.view.setVm vm := by
      simp [view, Heaps.setVm, hf.vm]
    simp only [taken, hal]
    refine ⟨hvw ▸ h.inv.taken ht, fun d => ?_, fun d hd i h₁ hi hmem => ?_⟩
    · dsimp only
      rw [hf.vm, ht.used, singleton_append, mem_cons]
      change _ ∨ d ∈ s.mem.vmAllocator.usedChunks ↔ _
      rw [h.used, or_left_comm]
    · rcases mem_cons.mp hd with rfl | hd
      · exact fresh h.inv.vm ht ((h.inv.heap i h₁ hi).owned d hmem) rfl
      · exact h.apart d hd i h₁ hi hmem

variable [DecidableEq ι]

theorem Accounts.exchanged (h : Accounts A s) (hinv : Heaps.Inv A t.view) {i : ι} {o}
    (hex : s.view.Exchanged t.view i o) (hdc : t.direct = s.direct) : Accounts A t := by
  have hhps : t.heaps = update s.heaps i o := congrArg Heaps.heaps hex.eq
  -- A direct range belongs to no heap before, so the operation leaves it alone.
  have hfm : ∀ d ∈ s.direct, d ∈ t.mem.vmAllocator.usedChunks ∧ d ∉ Heaps.chunksOf o := by
    intro d hd
    refine hex.frame d ((h.used d).mpr (.inr hd)) ?_
    cases hi : s.view.heaps i with
    | none => exact not_mem_nil
    | some h₁ => exact h.apart d hd i h₁ hi
  refine ⟨hinv, fun d => ⟨fun hd => ?_, ?_⟩, fun d hd j h' hj => ?_⟩
  · rw [hdc, hhps]
    by_cases hmem : d ∈ Heaps.chunksOf o
    · cases o with
      | none => exact absurd hmem not_mem_nil
      | some h' => exact .inl ⟨i, h', update_self .., hmem⟩
    · obtain ⟨hd, hnot⟩ := hex.back d hd hmem
      rcases (h.used d).mp hd with ⟨j, h₁, hj, hd⟩ | hd
      · have hji : j ≠ i := by
          rintro rfl
          change d ∉ Heaps.chunksOf (s.heaps j) at hnot
          rw [hj] at hnot
          exact hnot hd
        exact .inl ⟨j, h₁, by rwa [update_of_ne hji], hd⟩
      · exact .inr hd
  · rintro (⟨j, h', hj, hd⟩ | hd)
    · exact (hinv.heap j h' hj).owned d hd
    · rw [hdc] at hd
      exact (hfm d hd).1
  · rw [hdc] at hd
    rw [hhps] at hj
    by_cases hji : j = i
    · subst hji
      rw [update_self] at hj
      subst hj
      exact (hfm d hd).2
    · rw [update_of_ne hji] at hj
      exact h.apart d hd j h' hj

theorem Accounts.destroyHeap (h : Accounts A s) {i : ι} {h₁} (hi : s.heaps i = some h₁) :
    ∃ mem, s.mem.destroyHeap h₁ = .ok mem ∧
      s.view.call (.destroy i) = .ok (.destroyed, s.view.set i none mem.vmAllocator) := by
  have hinv := h.inv.heap i h₁ hi
  obtain ⟨mem, hds, hgiv⟩ := vmFree_all h.inv.vm hinv.nodup hinv.owned
  change giveBack s.view.vm _ = _ at hgiv
  have hvw : s.view.heaps i = some h₁ := hi
  exact ⟨mem, hds, by simp [Heaps.call, hvw, hgiv]⟩

/-- A request to a heap does to the heaps what it does without the rest of the guest memory. -/
theorem Accounts.call_heap (h : Accounts A s) {c} {r} (hcl : s.call (.heap c) = .ok (r, t)) :
    t.direct = s.direct ∧ ∃ r', s.view.call c = .ok (r', t.view) := by
  cases c with
  | destroy i =>
    cases hi : s.heaps i with
    | none =>
      have hvw : s.view.heaps i = none := hi
      simp only [call, hi] at hcl
      cases hcl
      exact ⟨rfl, .skipped, by simp [Heaps.call, hvw]⟩
    | some h₁ =>
      obtain ⟨mem, hds, hvw⟩ := h.destroyHeap hi
      simp only [call, hi, hds, ok_bind] at hcl
      cases hcl
      exact ⟨rfl, _, hvw⟩
  | _ =>
    simp only [call, bind_eq_ok] at hcl
    obtain ⟨⟨r', u⟩, hvw, hcl⟩ := hcl
    cases hcl
    exact ⟨rfl, r', hvw⟩

theorem Accounts.call (h : Accounts A s) {c} {r} (hcl : s.call c = .ok (r, t)) :
    Accounts A t := by
  cases c with
  | heap c =>
    obtain ⟨hdc, r', hvw⟩ := h.call_heap hcl
    have hdid := Heaps.did_of_call h.inv hvw
    rcases hdid.exchanged h.inv with heq | ⟨i, o, hex⟩
    · have hvm : t.mem.vmAllocator = s.mem.vmAllocator := congrArg Heaps.vm heq
      have hhps : t.heaps = s.heaps := congrArg Heaps.heaps heq
      refine ⟨hdid.inv h.inv, ?_, ?_⟩
      · rw [hvm, hhps, hdc]
        exact h.used
      · rw [hhps, hdc]
        exact h.apart
    · exact h.exchanged (hdid.inv h.inv) hex hdc
  | vmAlloc address size =>
    simp only [Pages.call, bind_eq_ok] at hcl
    obtain ⟨⟨r', mem⟩, hal, hcl⟩ := hcl
    cases hcl
    exact h.vmAlloc hal

end

/-- However requests to heaps and `vm_alloc` are interleaved, the pages in use are those of the heaps and of direct
    ranges. Destroying a heap returns and leaves in use the pages of the other heaps and the direct ranges, so that no
    page of the heap stays in use and no page of another heap is freed. -/
theorem destroy_gives_back_of_runs [DecidableEq ι] (A : Arena) (mem : Mem)
    (hnew : VMAllocator.new A.base A.len = .ok mem.vmAllocator) (s : Pages ι)
    (hrun : Runs call (fun _ _ => True) (start mem) s) :
    (∀ x, s.UsedAt x ↔ (∃ i, s.OwnedAt i x) ∨ s.DirectAt x) ∧
      ∀ i h, s.heaps i = some h → ∃ mem' t, s.mem.destroyHeap h = .ok mem' ∧
        s.call (.heap (.destroy i)) = .ok (.heap .destroyed, t) ∧
        t = { s with mem := mem', heaps := update s.heaps i none } ∧
        (∀ x, t.UsedAt x ↔ (∃ j, t.OwnedAt j x) ∨ t.DirectAt x) ∧
        (∀ x, t.UsedAt x ↔ (∃ j, j ≠ i ∧ s.OwnedAt j x) ∨ s.DirectAt x) ∧
        (∀ x, s.OwnedAt i x → ¬t.UsedAt x) ∧
        ∀ j, j ≠ i → ∀ x, s.OwnedAt j x → t.UsedAt x := by
  have hs : Accounts A s := hrun.invariant (accounts_start hnew) fun s t c r hs _ hcall => hs.call hcall
  refine ⟨fun x => hs.usedAt_iff, fun i h hi => ?_⟩
  obtain ⟨mem', hdestroy, -⟩ := hs.destroyHeap hi
  have hcall : s.call (.heap (.destroy i)) =
      .ok (.heap .destroyed, { s with mem := mem', heaps := update s.heaps i none }) := by
    simp [call, hi, hdestroy]
  have ht := hs.call hcall
  -- The pages that are owned afterwards are those of the other heaps.
  have howned : ∀ j x, Pages.OwnedAt { s with mem := mem', heaps := update s.heaps i none } j x ↔
      j ≠ i ∧ s.OwnedAt j x := by
    intro j x
    by_cases hj : j = i
    · subst hj
      simp [OwnedAt]
    · simp [OwnedAt, hj]
  have hused : ∀ x, Pages.UsedAt { s with mem := mem', heaps := update s.heaps i none } x ↔
      (∃ j, j ≠ i ∧ s.OwnedAt j x) ∨ s.DirectAt x := by
    intro x
    rw [ht.usedAt_iff]
    simp only [howned]
    exact .rfl
  refine ⟨mem', _, hdestroy, hcall, rfl, fun x => ht.usedAt_iff, hused, fun x hx hx' => ?_, fun j hj x hx => ?_⟩
  · rcases (hused x).mp hx' with ⟨j, hj, hxj⟩ | hdirect
    · exact hj (hs.owner_unique hxj hx)
    · exact hs.not_directAt hx hdirect
  · exact (hused x).mpr (.inl ⟨j, hj, hx⟩)

/-- Two heaps with a page each from `valloc` and a range from `vm_alloc` between them: the page of the heap that is
    destroyed is free, the page of the other heap is not. -/
theorem destroy_gives_back_of_runs_two :
    ∃ mem s t, Mem.new = .ok mem ∧ Runs call (fun _ _ => True) (start mem) s ∧
      s.call (.heap (.destroy true)) = .ok (.heap .destroyed, t) ∧ s.OwnedAt true 0x0 ∧ s.OwnedAt false 0x2000 ∧
      ¬t.UsedAt 0x0 ∧ t.UsedAt 0x2000 := by
  obtain ⟨mem, s, hmem, hrun, h, hi, hc, h', hi', hc'⟩ : ∃ mem s, Mem.new = .ok mem ∧
      Runs call (fun _ _ => True) (start mem) s ∧
      ∃ h, s.heaps true = some h ∧ (⟨0x0, 0x1000, by decide⟩ : Chunk) ∈ h.externalChunks ∧
      ∃ h', s.heaps false = some h' ∧ (⟨0x2000, 0x1000, by decide⟩ : Chunk) ∈ h'.externalChunks :=
    ⟨_, _, rfl, .step (a := .heap (.valloc false 1)) (.step (a := .vmAlloc none 1) (.step (a := .heap (.valloc true 1))
      (.step (a := .heap (.create false 0)) (.step (a := .heap (.create true 0)) .start trivial rfl) trivial rfl)
      trivial rfl) trivial rfl) trivial rfl, _, rfl, ChunkMap.getSizeWithBase_eq_some.mp rfl, _, rfl,
      ChunkMap.getSizeWithBase_eq_some.mp rfl⟩
  have hown : s.OwnedAt true 0x0 := ⟨h, hi, _, .inr hc, by decide⟩
  have hown' : s.OwnedAt false 0x2000 := ⟨h', hi', _, .inr hc', by decide⟩
  have hnew : VMAllocator.new Memory.arena.base Memory.arena.len = .ok mem.vmAllocator := by
    obtain ⟨vm, hvm, hmem⟩ := bind_eq_ok.mp hmem
    cases hmem
    exact hvm
  obtain ⟨mem', t, -, hcall, -, -, -, hfree, hkept⟩ := (destroy_gives_back_of_runs Memory.arena mem hnew s hrun).2 true h hi
  exact ⟨mem, s, t, hmem, hrun, hcall, hown, hown', hfree 0x0 hown, hkept false (by decide) 0x2000 hown'⟩

end Pages
end TouchHLE.Mem
