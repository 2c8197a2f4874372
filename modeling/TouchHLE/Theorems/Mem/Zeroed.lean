import TouchHLE.Theorems.Mem.Memory

/-! Fresh memory is zero, in every history of the guest memory in which no small `valloc` chunk is freed while memory is
    zeroed on allocation. -/

namespace TouchHLE.Mem
open Lib

/-- The number of bytes that a call which hands out fresh memory is asked for. -/
def MemCall.fresh {ι : Type} : MemCall ι → Option Nat
  | .alloc _ size => some size.toNat
  | .calloc size => some size.toNat
  | .valloc size => some size.toNat
  | .vmAlloc _ size => some size.toNat
  | _ => none

namespace Memory
variable {ι : Type}

/-- A chunk of pages of the heap, at the address, that `alloc` would have taken from inside of the heap: one from
    `valloc`. -/
def SmallExternal (s : Memory ι) (k : Option ι) (ptr : Nat) (f : Chunk) : Prop :=
  f.base = ptr ∧ f.size.get ≤ HeapAllocator.heapAllocationThreshold ∧ ∃ h, s.view.heaps k = some h ∧ f ∈ h.externalChunks

def WritesLive (s : Memory ι) : MemCall ι → Prop
  | .write ptr _ => s.view.LiveAt ptr.toNat
  | _ => True

/-- The calls that keep fresh memory zero: pages that are given back are in no heap, and when memory is
    zeroed on allocation, a small chunk of pages is not freed, neither by `free` nor by a `realloc` that
    moves it. -/
def Careful (s : Memory ι) : MemCall ι → Prop
  | .free k ptr => s.mem.zeroMemoryOnFree = false → ∀ f, ¬s.SmallExternal k ptr.toNat f
  | .realloc k ptr size =>
    s.mem.zeroMemoryOnFree = false → ∀ f, s.SmallExternal k ptr.toNat f → size.toNat ≤ f.size.get
  | .vmFree ptr size =>
    0 < size.toNat → pageDown ptr.toNat + pageUp size.toNat ≤ 2 ^ 32 →
      pageDown ptr.toNat + pageUp size.toNat ≤ Mem.mainThreadStackLowEnd ∧
        ∀ i h, s.view.heaps i = some h → ∀ c ∈ h.intoVmChunks,
          c.hi ≤ pageDown ptr.toNat ∨ pageDown ptr.toNat + pageUp size.toNat ≤ c.base
  | _ => True

variable {s s₀ t : Memory ι}

theorem start_inv {z} (hsr : start z = .ok s₀) : s₀.Inv := by
  obtain ⟨mem, hmem, hsr⟩ := bind_eq_ok.mp hsr
  cases hsr
  obtain ⟨vm, hvm, hmem⟩ := bind_eq_ok.mp hmem
  cases hmem
  refine ⟨⟨VMAllocator.inv_new hvm, ?_, ?_⟩, fun x hx => absurd rfl hx⟩
  · rintro (_ | i) h hi <;> cases hi
  · rintro (_ | i) j h h' hi <;> cases hi

variable [DecidableEq ι]

theorem call_spec (hs : s.Inv) {c} (hlv : s.WritesLive c) (hc : s.Careful c) {r}
    (hcl : s.call c = .ok (r, t)) :
    t.Inv ∧ ∀ n ptr, c.fresh = some n → r = .pointer ptr → ∀ x, ptr ≤ x → x < ptr + n → t.mem.bytes x = 0 := by
  cases c with
  | alloc k size =>
    simp only [call, bind_eq_ok] at hcl
    obtain ⟨g, hg, ⟨ptr, g', mem⟩, hal, hcl⟩ := hcl
    cases hcl
    have hfh := allocInHeap_ok hs hg size.toNat_lt hal
    refine ⟨hfh.inv, ?_⟩
    rintro _ _ ⟨⟩ ⟨⟩ x hlo hhi
    rw [mem_store]
    exact hfh.zero x hlo hhi
  | calloc size =>
    simp only [call, bind_eq_ok] at hcl
    obtain ⟨⟨ptr, mem⟩, hal, hcl⟩ := hcl
    cases hcl
    refine (calloc_ok hs size.toNat_lt hal).imp_right ?_
    rintro hzr _ _ ⟨⟩ ⟨⟩
    exact hzr
  | valloc size =>
    simp only [call, bind_eq_ok] at hcl
    obtain ⟨⟨ptr, mem⟩, hal, hcl⟩ := hcl
    cases hcl
    refine (valloc_ok hs size.toNat_lt hal).imp_right ?_
    rintro hzr _ _ ⟨⟩ ⟨⟩
    exact hzr
  | vmAlloc address size =>
    simp only [call, bind_eq_ok] at hcl
    obtain ⟨⟨r', mem⟩, hal, hcl⟩ := hcl
    have had : ∀ a ∈ address.map UInt32.toNat, a < 2 ^ 32 := by
      simp only [Option.mem_def, Option.map_eq_some_iff]
      rintro _ ⟨a, -, rfl⟩
      exact a.toNat_lt
    obtain ⟨hinv, hzr⟩ := vmAlloc_ok hs had size.toNat_lt hal
    cases r' with
    | error e =>
      cases hcl
      exact ⟨hinv, nofun⟩
    | ok ptr =>
      cases hcl
      refine ⟨hinv, ?_⟩
      rintro _ _ ⟨⟩ ⟨⟩
      exact hzr ptr rfl
  | realloc k ptr size =>
    simp only [call, bind_eq_ok] at hcl
    obtain ⟨g, hg, ⟨ptr', g', mem⟩, hrll, hcl⟩ := hcl
    cases hcl
    exact ⟨reallocInHeap_ok hs hg size.toNat_lt hrll fun hz h f hh hf hbs hsl => hc hz f ⟨hbs, hsl, h, hh, hf⟩, nofun⟩
  | free k ptr =>
    simp only [call, bind_eq_ok] at hcl
    obtain ⟨g, hg, ⟨n, g', mem⟩, hfr, hcl⟩ := hcl
    cases hcl
    exact ⟨freeInHeap_ok hs hg hfr fun hz h f hh hf hbs =>
      Nat.lt_of_not_le fun hsl => hc hz f ⟨hbs, hsl, h, hh, hf⟩, nofun⟩
  | vmFree ptr size =>
    simp only [call, bind_eq_ok] at hcl
    obtain ⟨mem, hfr, hcl⟩ := hcl
    cases hcl
    exact ⟨vmFree_ok hs ptr.toNat_lt size.toNat_lt hfr hc, nofun⟩
  | createHeap z size =>
    cases hz : s.zones z with
    | some h => simp [call, hz] at hcl
    | none =>
      simp only [call, hz, bind_eq_ok] at hcl
      obtain ⟨⟨h, mem⟩, hct, hcl⟩ := hcl
      cases hcl
      exact ⟨createHeap_ok hs hz size.toNat_lt hct, nofun⟩
  | destroyHeap z =>
    cases hz : s.zones z with
    | none => simp [call, hz] at hcl
    | some h =>
      simp only [call, hz, bind_eq_ok] at hcl
      obtain ⟨mem, hds, hcl⟩ := hcl
      cases hcl
      exact ⟨destroyHeap_ok hs hz hds, nofun⟩
  | write ptr value =>
    cases hcl
    refine ⟨.written (k := none) (g := none) hs rfl rfl rfl fun x hx => ?_, nofun⟩
    by_cases hxp : x = ptr.toNat
    · exact hxp ▸ hlv
    · exact absurd (Function.update_of_ne hxp _ _) hx

/-- For both settings of the flag, in every run of careful calls with writes to live memory only, the memory that the
    next `alloc`, `calloc`, `valloc` or `vm_alloc` returns is zero. -/
theorem zeroed_of_runs (zeroOnFree : Bool) (s₀ s : Memory ι) (hstart : start zeroOnFree = .ok s₀)
    (hrun : Runs call (fun s c => s.WritesLive c ∧ s.Careful c) s₀ s) (c : MemCall ι) (n ptr : Nat) (t : Memory ι)
    (hc : c.fresh = some n) (hcall : s.call c = .ok (.pointer ptr, t)) :
    ∀ x, ptr ≤ x → x < ptr + n → t.mem.bytes x = 0 := by
  have hs : s.Inv := hrun.invariant (start_inv hstart) fun _ _ _ _ hs hg hcall => (call_spec hs hg.1 hg.2 hcall).1
  have hlive : s.WritesLive c := by
    cases c <;> trivial
  have hcareful : s.Careful c := by
    cases c <;> trivial
  exact (call_spec hs hlive hcareful hcall).2 n ptr hc rfl

/-- Memory that is written to, freed and handed out again. -/
theorem zeroed_of_runs_reuse : ∃ s₀ s t : Memory Unit, start true = .ok s₀ ∧
    Runs call (fun s c => s.WritesLive c ∧ s.Careful c) s₀ s ∧ s.call (.alloc none 32) = .ok (.pointer 0, t) ∧
      t.mem.bytes 0 = 0 := by
  have hrun : ∃ s₀ s t : Memory Unit, start true = .ok s₀ ∧
      Runs call (fun s c => s.WritesLive c ∧ s.Careful c) s₀ s ∧ s.call (.alloc none 32) = .ok (.pointer 0, t) :=
    ⟨_, _, _, rfl, .step (a := .free none 0) (.step (a := .write 0 7) (.step (a := .alloc none 32) .start ⟨trivial, trivial⟩ rfl)
      ⟨.inl ⟨none, _, rfl, ⟨0, 32, by decide⟩, .inl (ChunkMap.getSizeWithBase_eq_some.mp rfl), by decide⟩, trivial⟩ rfl)
      ⟨trivial, nofun⟩ rfl, rfl⟩
  obtain ⟨s₀, s, t, hstart, hrun, hcall⟩ := hrun
  exact ⟨s₀, s, t, hstart, hrun, hcall, zeroed_of_runs true s₀ s hstart hrun _ 32 _ t rfl hcall _ (Nat.le_refl _) (by decide)⟩

/-- A page from `valloc` that is freed while memory is zeroed on allocation comes back dirty. -/
theorem zeroed_fails : ∃ s₀ s t : Memory Unit, start false = .ok s₀ ∧ Runs call WritesLive s₀ s ∧
    s.call (.alloc none 16384) = .ok (.pointer 0x200000, t) ∧ t.mem.bytes 0x200000 = 7 :=
  ⟨_, _, _, rfl, .step (a := .free none 0x200000) (.step (a := .write 0x200000 7) (.step (a := .valloc 4096) .start trivial rfl)
    (.inl ⟨none, _, rfl, ⟨0x200000, 4096, by decide⟩, .inr (ChunkMap.getSizeWithBase_eq_some.mp rfl), by decide⟩) rfl)
    trivial rfl, rfl, rfl⟩

end Memory
end TouchHLE.Mem
