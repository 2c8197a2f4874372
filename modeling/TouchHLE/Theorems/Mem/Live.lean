import TouchHLE.Theorems.Mem.HeapRun

/-! Which addresses are in live allocations: those in a used or an external chunk of a heap, and those in a used chunk of the
    allocator of pages that no heap owns. -/

namespace TouchHLE.Mem
open Lib HeapAllocator
variable {c a : Chunk} {vm' : VMAllocator} {h' : HeapAllocator}

namespace Heaps
variable {ι : Type}

def LiveIn (s : Heaps ι) (i : ι) (x : Nat) : Prop := ∃ h, s.heaps i = some h ∧ ∃ c, Live h c ∧ c.Has x

def DirectAt (s : Heaps ι) (x : Nat) : Prop :=
  ∃ c ∈ s.vm.usedChunks, c.Has x ∧ ∀ i h, s.heaps i = some h → c ∉ h.intoVmChunks

def LiveAt (s : Heaps ι) (x : Nat) : Prop := (∃ i, s.LiveIn i x) ∨ s.DirectAt x

section
variable {A : Arena} {s : Heaps ι} {x : Nat}

/-- What is live is in use for the allocator of pages. -/
theorem LiveAt.used (h : Inv A s) (hx : s.LiveAt x) : s.vm.usedChunks.Has x := by
  rcases hx with ⟨i, h₁, hi, c, hc, hcx⟩ | ⟨c, hc, hcx, -⟩
  · obtain ⟨b, hb, hbx, -⟩ := h.owner hi hc hcx
    exact ⟨b, (h.heap i h₁ hi).owned b hb, hbx⟩
  · exact ⟨c, hc, hcx⟩

theorem not_liveAt_of_unused (h : Inv A s) {i : ι} {h₁} (hi : s.heaps i = some h₁)
    (hx : h₁.unusedChunks.chunks.Has x) : ¬s.LiveAt x := by
  have hinv := h.heap i h₁ hi
  obtain ⟨b, hb, hbx⟩ := (hinv.cover x).mp (.inr hx)
  have hbo : b ∈ h₁.intoVmChunks := mem_intoVmChunks.mpr (.inr hb)
  rintro (⟨j, h₂, hj, c, hc, hcx⟩ | ⟨c, hc, hcx, hnot⟩)
  · obtain ⟨e, he, hex, hca⟩ := h.owner hj hc hcx
    by_cases hij : i = j
    · subst hij
      obtain rfl : h₁ = h₂ := Option.some_inj.mp (hi.symm.trans hj)
      rcases hca with ⟨hc, -⟩ | ⟨hc, rfl⟩
      · exact hinv.not_has_both ⟨c, hc, hcx⟩ hx
      · exact Chunk.apart_iff.mp (h.external_apart hi hc hb) x hcx hbx
    · exact Chunk.apart_iff.mp (h.owned_apart hi hj hbo he (.inr hij)) x hbx hex
  · obtain rfl : c = b := h.vm.used.eq_of_has hc (hinv.owned b hbo) hcx hbx
    exact hnot i h₁ hi hbo

end

variable [DecidableEq ι] {A : Arena} {s t : Heaps ι} {x : Nat} {i : ι}

theorem liveIn_set_self {h} {vm} (hc : Live h c) (hx : c.Has x) :
    (s.set i (some h) vm).LiveIn i x :=
  ⟨h, by simp [Heaps.set], c, hc, hx⟩

theorem LiveAt.set {o}
    (hfm : Frame s.vm vm' (chunksOf (s.heaps i)) (chunksOf o)) (hx : s.LiveAt x) :
    (s.set i o vm').LiveAt x ∨ s.LiveIn i x := by
  rcases hx with ⟨j, h₁, hj, c, hc, hcx⟩ | ⟨c, hc, hcx, hnot⟩
  · by_cases hji : j = i
    · subst hji
      exact .inr ⟨h₁, hj, c, hc, hcx⟩
    · exact .inl (.inl ⟨j, h₁, by simpa [Heaps.set, hji] using hj, c, hc, hcx⟩)
  · have hci : c ∉ chunksOf (s.heaps i) := by
      cases hi : s.heaps i with
      | none => exact List.not_mem_nil
      | some h₀ => exact hnot i h₀ hi
    obtain ⟨hc', hco⟩ := hfm c hc hci
    refine .inl (.inr ⟨c, hc', hcx, fun j h₁ hj => ?_⟩)
    by_cases hji : j = i
    · subst hji
      obtain rfl : o = some h₁ := by simpa [Heaps.set] using hj
      exact hco
    · exact hnot j h₁ (by simpa [Heaps.set, hji] using hj)

end Heaps

/-! ### What each operation does to the live chunks of its heap -/

namespace HeapAllocator
variable {vm : VMAllocator} {h : HeapAllocator} {d f : Chunk} {size base n : Nat} {o : Option Chunk}

theorem External.live (he : External vm vm' h h' c a) (hd : Heaps.Live h d) : Heaps.Live h' d := by
  unfold Heaps.Live
  rw [he.used, he.external]
  exact hd.imp_right .inr

theorem Inside.live (hin : Inside h h' c a) (hd : Heaps.Live h d) : Heaps.Live h' d := by
  unfold Heaps.Live
  rw [hin.external, hin.moved.used]
  exact hd.imp_left .inr

theorem Grown.live (hg : Grown vm vm' h h' c a) (hd : Heaps.Live h d) : Heaps.Live h' d := by
  unfold Heaps.Live
  rw [hg.external, hg.used]
  exact hd

theorem Allocated.live (ha : Allocated vm h size o h' vm') (hd : Heaps.Live h d) : Heaps.Live h' d := by
  cases ha with
  | refused => exact hd
  | external _ _ he => exact he.live hd
  | inside _ _ hin => exact hin.live hd
  | grown _ _ hg hin => exact hin.live (hg.live hd)

theorem Allocated.live_new (ha : Allocated vm h size (some a) h' vm') : Heaps.Live h' a := by
  cases ha with
  | external _ _ he => exact .inr ((he.external a).mpr (.inl rfl))
  | inside _ _ hin | grown _ _ _ hin => exact .inl ((hin.moved.used a).mpr (.inl rfl))

theorem Allocated.external_old (ha : Allocated vm h size o h' vm')
    (hd : d ∈ h'.externalChunks) (hsl : d.size.get ≤ heapAllocationThreshold) : d ∈ h.externalChunks := by
  cases ha with
  | refused => exact hd
  | external hlrg hsz he =>
    refine ((he.external d).mp hd).resolve_left ?_
    rintro rfl
    have := le_pageUp size
    omega
  | inside _ _ hin => exact hin.external ▸ hd
  | grown _ _ hg hin =>
    rw [hin.external, hg.external] at hd
    exact hd

/-- `free` ends the life of the chunk at the address, if there is one, and returns its size. -/
theorem Released.live (hr : Released vm h base n h' vm') (hd : Heaps.Live h d) :
    Heaps.Live h' d ∨ (d.base = base ∧ d.size.get = n) := by
  cases hr with
  | external hbs hg =>
    rename_i f
    by_cases hdf : d = f
    · exact .inr ⟨hdf ▸ hbs, by rw [hdf]⟩
    · left
      unfold Heaps.Live
      rw [hg.used, hg.external]
      exact hd.imp_right fun hd => ⟨hd, hdf⟩
  | inside hbs hm =>
    rename_i f m o
    by_cases hdf : d = f
    · exact .inr ⟨hdf ▸ hbs, by rw [hdf]⟩
    · left
      unfold Heaps.Live
      rw [hm.external, hm.used]
      exact hd.imp_left fun hd => ⟨hd, hdf⟩
  | unknown => exact .inl hd

theorem Allocated.vm_used (ha : Allocated vm h size o h' vm') {x : Nat}
    (hx : vm.usedChunks.Has x) : vm'.usedChunks.Has x := by
  cases ha with
  | refused => exact hx
  | external _ _ he => exact he.taken.has_used.mpr (.inl hx)
  | inside => exact hx
  | grown _ _ hg => exact hg.taken.has_used.mpr (.inl hx)

theorem Created.vm_used (hc : Created vm size h vm') {x : Nat} (hx : vm.usedChunks.Has x) : vm'.usedChunks.Has x := by
  cases hc with
  | empty => exact hx
  | backed ht => exact ht.has_used.mpr (.inl hx)

theorem Released.vm_used {A} (hvm : vm.Inv A) (hi : h.Inv vm) (hr : Released vm h base n h' vm')
    {x : Nat} (hx : vm.usedChunks.Has x) :
    vm'.usedChunks.Has x ∨ ∃ f ∈ h.externalChunks, f.base = base ∧ f.size.get = n ∧ f.Has x := by
  cases hr with
  | external hbs hg =>
    rename_i f
    by_cases hfx : f.Has x
    · exact .inr ⟨f, hg.mem, hbs, rfl, hfx⟩
    · exact .inl ((hg.vm_spec hvm hi).1.has_used hvm.toPartition |>.mpr ⟨hx, hfx⟩)
  | inside | unknown => exact .inl hx

end HeapAllocator

namespace Heaps
variable {ι : Type} {A : Arena} {s t : Heaps ι} {x size : Nat} {z : Bool} {r : Chunk} {i : ι} {h₀ : HeapAllocator}

/-- The addresses whose bytes may differ from zero: when memory is zeroed on free, those of live allocations,
    otherwise all that are in use for the allocator of pages. -/
def MayHold (zeroOnFree : Bool) (s : Heaps ι) (x : Nat) : Prop :=
  if zeroOnFree then s.LiveAt x else s.vm.usedChunks.Has x

theorem LiveAt.mayHold (h : Inv A s) (hx : s.LiveAt x) : s.MayHold z x := by
  cases z
  · exact hx.used h
  · exact hx

theorem MayHold.used (h : Inv A s) (hx : s.MayHold z x) : s.vm.usedChunks.Has x := by
  cases z
  · exact hx
  · exact LiveAt.used h hx

def setVm (s : Heaps ι) (vm : VMAllocator) : Heaps ι := ⟨vm, s.heaps⟩

theorem Inv.setVm (h : Inv A s) (hvm : vm'.Inv A)
    (hkp : ∀ i h, s.heaps i = some h → ∀ c ∈ h.intoVmChunks, c ∈ vm'.usedChunks) : Inv A (s.setVm vm') where
  vm := hvm
  heap := fun i h₁ hi =>
    have hold := h.heap i h₁ hi
    ⟨hold.toPartition, hkp i h₁ hi, hold.nodup⟩
  separate := h.separate

theorem Inv.taken (h : Inv A s) (ht : s.vm.Taken vm' c a) : Inv A (s.setVm vm') :=
  h.setVm (ht.inv h.vm) fun i h₁ hi d hd => (ht.used d).mpr (.inr ((h.heap i h₁ hi).owned d hd))

theorem mayHold_taken (ht : s.vm.Taken vm' c a) (hx : s.MayHold z x) : (s.setVm vm').MayHold z x := by
  cases z
  · exact ht.has_used.mpr (.inl hx)
  · exact .imp_right (fun ⟨d, hd, hdx, hnot⟩ => ⟨d, (ht.used d).mpr (.inr hd), hdx, hnot⟩) hx

/-- A chunk that `r` does not touch survives the return of `r`. -/
theorem mem_of_freed (h : Inv A s) {d} (hr : s.vm.Freed vm' r) (hd : d ∈ s.vm.usedChunks)
    (hap : d.Apart r) : d ∈ vm'.usedChunks :=
  (hr.used d).mpr ⟨d, hd, (Chunk.mem_pieces (h.vm.used.fits d hd) hr.fits).mpr (.inl ⟨hap, rfl⟩)⟩

theorem Inv.freed (h : Inv A s) (hr : s.vm.Freed vm' r) (hvm : vm'.Inv A)
    (hap : ∀ i h, s.heaps i = some h → ∀ c ∈ h.intoVmChunks, c.Apart r) : Inv A (s.setVm vm') :=
  h.setVm hvm fun i h₁ hi c hc => mem_of_freed h hr ((h.heap i h₁ hi).owned c hc) (hap i h₁ hi c hc)

theorem mayHold_freed (h : Inv A s) (hr : s.vm.Freed vm' r) (hx : s.MayHold z x) : (s.setVm vm').MayHold z x ∨ r.Has x := by
  by_cases hrx : r.Has x
  · exact .inr hrx
  · left
    cases z with
    | false => exact (hr.has_used h.vm.toPartition).mpr ⟨hx, hrx⟩
    | true =>
      refine .imp_right (fun hdc => ?_) hx
      obtain ⟨d, hd, hdx, hnot⟩ := hdc
      -- The part of the chunk that is not given back is a used chunk, and new or not owned by a heap.
      obtain ⟨e, he, hex⟩ := (Chunk.exists_piece_has (h.vm.used.fits d hd) hr.fits).mpr ⟨hdx, hrx⟩
      refine ⟨e, (hr.used e).mpr ⟨d, hd, he⟩, hex, fun i h₁ hi hown => ?_⟩
      have hed : e = d := h.vm.used.eq_of_has ((h.heap i h₁ hi).owned e hown) hd hex hdx
      exact hnot i h₁ hi (hed ▸ hown)

/-! ### Operations on one of the heaps -/

variable [DecidableEq ι]

theorem Inv.remove (h : Inv A s) (i : ι) : Inv A (s.set i none s.vm) :=
  h.set h.vm nofun fun _ hd _ => ⟨hd, List.not_mem_nil⟩

theorem mayHold_remove (h : Inv A s) (hx : s.MayHold z x) : (s.set i none s.vm).MayHold z x := by
  cases z with
  | false => exact hx
  | true =>
    have hfm : Frame s.vm s.vm (chunksOf (s.heaps i)) (chunksOf none) := fun _ hd _ => ⟨hd, List.not_mem_nil⟩
    rcases LiveAt.set hfm hx with hx | ⟨h₁, hi, c, hc, hcx⟩
    · exact hx
    · -- The chunk that held the address belongs to no heap any more.
      obtain ⟨b, hb, hbx, -⟩ := h.owner hi hc hcx
      refine .inr ⟨b, (h.heap i h₁ hi).owned b hb, hbx, fun j h₂ hj => ?_⟩
      by_cases hji : j = i
      · subst hji
        simp [Heaps.set] at hj
      · exact h.separate i j h₁ h₂ hi (by simpa [Heaps.set, hji] using hj) (Ne.symm hji) b hb

theorem MayHold.set {o} {P}
    (hfm : Frame s.vm vm' (chunksOf (s.heaps i)) (chunksOf o))
    (hlv : s.LiveIn i x → (s.set i o vm').LiveAt x ∨ P)
    (hus : z = false → s.vm.usedChunks.Has x → vm'.usedChunks.Has x ∨ P) (hx : s.MayHold z x) :
    (s.set i o vm').MayHold z x ∨ P := by
  cases z
  · exact hus rfl hx
  · rcases LiveAt.set hfm hx with hx | hx
    · exact .inl hx
    · exact hlv hx

theorem mayHold_created (h : Inv A s)
    (hab : s.heaps i = none) (hc : Created s.vm size h' vm') (hx : s.MayHold z x) :
    (s.set i (some h') vm').MayHold z x := by
  refine Or.resolve_right (hx.set ?_ ?_ ?_) id
  · rw [hab]
    exact hc.frame h.vm
  · rintro ⟨h₀, hh, -⟩
    rw [hab] at hh
    cases hh
  · exact fun _ hx => .inl (hc.vm_used hx)

section
variable (h : Inv A s) (hi : s.heaps i = some h₀)
include h hi

omit h in
theorem MayHold.grown
    (hfm : Frame s.vm vm' h₀.intoVmChunks h'.intoVmChunks) (hlv : ∀ c, Live h₀ c → Live h' c)
    (hus : s.vm.usedChunks.Has x → vm'.usedChunks.Has x) (hx : s.MayHold z x) : (s.set i (some h') vm').MayHold z x := by
  refine Or.resolve_right (hx.set ?_ ?_ ?_) id
  · rw [hi]
    exact hfm
  · rintro ⟨h₁, hh, c, hc, hcx⟩
    obtain rfl : h₀ = h₁ := Option.some_inj.mp (hi.symm.trans hh)
    exact .inl (.inl ⟨i, liveIn_set_self (hlv c hc) hcx⟩)
  · exact fun _ hx => .inl (hus hx)

theorem mayHold_allocated
    {o} (ha : Allocated s.vm h₀ size o h' vm') (hx : s.MayHold z x) :
    (s.set i (some h') vm').MayHold z x :=
  hx.grown hi (ha.inv h.vm (h.heap i h₀ hi)).2.2 (fun _ hc => ha.live hc) ha.vm_used

theorem mayHold_external (he : External s.vm vm' h₀ h' c a) (hx : s.MayHold z x) : (s.set i (some h') vm').MayHold z x :=
  hx.grown hi (he.frame h.vm (h.heap i h₀ hi)) (fun _ hc => he.live hc) fun hx => he.taken.has_used.mpr (.inl hx)

/-- What an allocation returns held nothing but zeroes: memory of the heap when that is zeroed on free, and pages
    always. -/
theorem not_mayHold_of_allocated (ha : Allocated s.vm h₀ size (some a) h' vm')
    (hz : z = true ∨ heapAllocationThreshold < a.size.get) (hx : a.Has x) : ¬s.MayHold z x := by
  have hinv := h.heap i h₀ hi
  cases ha with
  | external _ _ he => exact fun hm => h.vm.not_has_both (hm.used h) (he.taken.has_of_has hx)
  | inside hsl hsz hin =>
    obtain rfl : z = true := hz.resolve_right (by omega)
    exact not_liveAt_of_unused h hi (hin.moved.has_of_has hx)
  | grown hsl hsz hg hin =>
    rename_i h₁ b c₁ c
    obtain rfl : z = true := hz.resolve_right (by omega)
    -- The heap after it has grown: the address is in its unused memory.
    have hfm : Frame s.vm vm' (chunksOf (s.heaps i)) (chunksOf (some h₁)) := by
      rw [hi]
      exact hg.frame h.vm hinv
    have hgro : Inv A (s.set i (some h₁) vm') := h.set_some hi ⟨hg.taken.inv h.vm, hg.inv h.vm hinv, hg.frame h.vm hinv⟩
    have hnot := not_liveAt_of_unused hgro (i := i) (by simp [Heaps.set]) (hin.moved.has_of_has hx)
    intro hm
    rcases LiveAt.set hfm hm with hm | ⟨h₂, hh, d, hd, hdx⟩
    · exact hnot hm
    · obtain rfl : h₀ = h₂ := Option.some_inj.mp (hi.symm.trans hh)
      exact hnot (.inl ⟨i, liveIn_set_self (hg.live hd) hdx⟩)

/-- What `free` gives back: when memory is not zeroed on free, the pages of an external chunk. -/
theorem mayHold_released {base n : Nat}
    (hr : Released s.vm h₀ base n h' vm') (hx : s.MayHold z x) :
    (s.set i (some h') vm').MayHold z x ∨
      (base ≤ x ∧ x < base + n ∧ (z = false → ∃ f ∈ h₀.externalChunks, f.base = base ∧ f.size.get = n)) := by
  have hrn : ∀ f : Chunk, f.base = base → f.size.get = n → f.Has x → base ≤ x ∧ x < base + n := by
    rintro f rfl rfl hfx
    exact hfx
  cases z with
  | true =>
    refine hx.set ?_ ?_ nofun
    · rw [hi]
      exact (hr.inv h.vm (h.heap i h₀ hi)).2.2
    · rintro ⟨h₁, hh, c, hc, hcx⟩
      obtain rfl : h₀ = h₁ := Option.some_inj.mp (hi.symm.trans hh)
      rcases hr.live hc with hc | ⟨hb, hn⟩
      · exact .inl (.inl ⟨i, liveIn_set_self hc hcx⟩)
      · obtain ⟨hlo, hhi⟩ := hrn c hb hn hcx
        exact .inr ⟨hlo, hhi, nofun⟩
  | false =>
    rcases hr.vm_used h.vm (h.heap i h₀ hi) hx with hx | ⟨f, hf, hb, hn, hfx⟩
    · exact .inl hx
    · obtain ⟨hlo, hhi⟩ := hrn f hb hn hfx
      exact .inr ⟨hlo, hhi, fun _ => ⟨f, hf, hb, hn⟩⟩

end

end Heaps
end TouchHLE.Mem
