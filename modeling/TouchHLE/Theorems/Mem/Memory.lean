import TouchHLE.Mem.Memory
import TouchHLE.Theorems.Mem.Live

/-! The guest memory with the heaps of all zones. Memory is zeroed when it is freed or when it is allocated, so the bytes
    that may differ from zero are those of live allocations, or all that are in use for the allocator of pages. -/

namespace TouchHLE.Mem
open Lib Function

structure Memory (ι : Type) where
  mem : Mem
  zones : ι → Option HeapAllocator

/-- The requests of the guest, on the default heap (`none`) or the heap of a zone, and its writes. -/
inductive MemCall (ι : Type) where
  | alloc (heap : Option ι) (size : UInt32)
  | calloc (size : UInt32)
  | valloc (size : UInt32)
  | vmAlloc (address : Option UInt32) (size : UInt32)
  | realloc (heap : Option ι) (ptr size : UInt32)
  | free (heap : Option ι) (ptr : UInt32)
  | vmFree (ptr size : UInt32)
  | createHeap (zone : ι) (size : UInt32)
  | destroyHeap (zone : ι)
  | write (ptr : UInt32) (value : UInt8)

inductive MemResult where
  | pointer (ptr : Nat)
  | refused (error : VMAllocError)
  | size (n : Nat)
  | done

namespace Memory
variable {ι : Type}

def start (zeroOnFree : Bool) : Except Panic (Memory ι) := do
  let mem ← Mem.new
  .ok ⟨{ mem with zeroMemoryOnFree := zeroOnFree }, fun _ => none⟩

def given (s : Memory ι) : Option ι → Except Panic (Option HeapAllocator)
  | none => .ok none
  | some z =>
    match s.zones z with
    | none => .error .unknownZone
    | some h => .ok (some h)

/-- The state after an operation on `k` has changed the guest memory and the heap it was given. -/
def store [DecidableEq ι] (s : Memory ι) (k : Option ι) (heap : Option HeapAllocator) (mem : Mem) : Memory ι :=
  match k with
  | none => { s with mem }
  | some z => ⟨mem, update s.zones z heap⟩

def call [DecidableEq ι] (s : Memory ι) : MemCall ι → Except Panic (MemResult × Memory ι)
  | .alloc k size => do
    let g ← s.given k
    let (ptr, g, mem) ← s.mem.allocInHeap g size.toNat
    .ok (.pointer ptr, s.store k g mem)
  | .calloc size => do
    let (ptr, mem) ← s.mem.calloc size.toNat
    .ok (.pointer ptr, { s with mem })
  | .valloc size => do
    let (ptr, mem) ← s.mem.valloc size.toNat
    .ok (.pointer ptr, { s with mem })
  | .vmAlloc address size => do
    match ← s.mem.vmAlloc (address.map UInt32.toNat) size.toNat with
    | (.ok ptr, mem) => .ok (.pointer ptr, { s with mem })
    | (.error e, mem) => .ok (.refused e, { s with mem })
  | .realloc k ptr size => do
    let g ← s.given k
    let (ptr, g, mem) ← s.mem.reallocInHeap g ptr.toNat size.toNat
    .ok (.pointer ptr, s.store k g mem)
  | .free k ptr => do
    let g ← s.given k
    let (n, g, mem) ← s.mem.freeInHeap g ptr.toNat
    .ok (.size n, s.store k g mem)
  | .vmFree ptr size => do
    let mem ← s.mem.vmFree ptr.toNat size.toNat
    .ok (.done, { s with mem })
  | .createHeap z size =>
    match s.zones z with
    | some _ => .error .zonePresent
    | none => do
      let (h, mem) ← s.mem.createHeap size.toNat
      .ok (.done, ⟨mem, update s.zones z (some h)⟩)
  | .destroyHeap z =>
    match s.zones z with
    | none => .error .unknownZone
    | some h => do
      let mem ← s.mem.destroyHeap h
      .ok (.done, ⟨mem, update s.zones z none⟩)
  | .write ptr value =>
    .ok (.done, { s with mem := { s.mem with bytes := update s.mem.bytes ptr.toNat value } })

/-- The allocator of pages and all heaps, the default heap among them. -/
def view (s : Memory ι) : Heaps (Option ι) := ⟨s.mem.vmAllocator, fun k => k.elim s.mem.heapAllocator s.zones⟩

/-- The arena of the guest memory: all but the stack of the main thread. -/
def arena : Arena := ⟨0, Mem.mainThreadStackLowEnd, by decide, by decide, by decide, by decide, by decide⟩

/-- The allocators are sound, and only bytes that may differ from zero do. -/
structure Inv (s : Memory ι) : Prop where
  heaps : Heaps.Inv arena s.view
  zero : ∀ x, s.mem.bytes x ≠ 0 → s.view.MayHold s.mem.zeroMemoryOnFree x

variable {s t : Memory ι} {k : Option ι} {g : Option HeapAllocator} {x : Nat}
variable {mem mem' : Mem} {ptr count size : Nat} {z : ι} {h : HeapAllocator} {vm : VMAllocator} {g' : Option HeapAllocator}

structure Filled (mem mem' : Mem) (ptr count : Nat) : Prop where
  inside : ∀ x, ptr ≤ x → x < ptr + count → mem'.bytes x = 0
  bytes : ∀ x, mem'.bytes x ≠ 0 → mem.bytes x ≠ 0 ∧ ¬(ptr ≤ x ∧ x < ptr + count)
  vm : mem'.vmAllocator = mem.vmAllocator
  heap : mem'.heapAllocator = mem.heapAllocator
  flag : mem'.zeroMemoryOnFree = mem.zeroMemoryOnFree

theorem fillZero_ok (h : mem.fillZero ptr count = .ok mem') : ptr + count ≤ 2 ^ 32 ∧ Filled mem mem' ptr count := by
  unfold Mem.fillZero at h
  split at h
  · rename_i hle
    cases h
    refine ⟨hle, fun x hlo hhi => if_pos ⟨hlo, hhi⟩, fun x hx => ?_, rfl, rfl, rfl⟩
    by_cases hin : ptr ≤ x ∧ x < ptr + count
    · exact absurd (if_pos hin) hx
    · refine ⟨?_, hin⟩
      dsimp only at hx
      rwa [if_neg hin] at hx
  · cases h

theorem view_setVm (hdef : mem.heapAllocator = s.mem.heapAllocator) :
    { s with mem }.view = s.view.setVm mem.vmAllocator := by
  simp [view, Heaps.setVm, hdef]

theorem vmAlloc_ok (hs : s.Inv) {address} (ha : ∀ a ∈ address, a < 2 ^ 32) (hlt : size < 2 ^ 32)
    {r} (heq : s.mem.vmAlloc address size = .ok (r, mem)) :
    { s with mem }.Inv ∧ ∀ ptr, r = .ok ptr → ∀ x, ptr ≤ x → x < ptr + size → mem.bytes x = 0 := by
  obtain ⟨⟨r', vm⟩, hcl, heq⟩ := bind_eq_ok.mp heq
  rcases VMAllocator.allocate_cases hs.heaps.vm ha hlt hcl with ⟨e, rfl, rfl⟩ | ⟨a, rfl, hsi, htn⟩
  · cases heq
    exact ⟨hs, nofun⟩
  · obtain ⟨mem₂, hfll, heq⟩ := bind_eq_ok.mp heq
    cases heq
    obtain ⟨hfit, hf⟩ := fillZero_ok hfll
    obtain ⟨c, ht⟩ := htn hfit
    have hvw : { s with mem }.view = s.view.setVm vm := by
      rw [view_setVm hf.heap, hf.vm]
    refine ⟨⟨?_, fun x hx => ?_⟩, ?_⟩
    · rw [hvw]
      exact hs.heaps.taken ht
    · rw [hvw]
      rw [hf.flag]
      exact Heaps.mayHold_taken ht (hs.zero x (hf.bytes x hx).1)
    · rintro _ ⟨⟩ x hlo hhi
      exact hf.inside x hlo (by omega)

/-- Pages that no heap owns are given back and zeroed. -/
theorem Inv.freedPages (hs : s.Inv) {r} {vm'} (hr : s.mem.vmAllocator.Freed vm' r)
    (hvm : vm'.Inv arena) (hap : ∀ i h, s.view.heaps i = some h → ∀ c ∈ h.intoVmChunks, c.Apart r)
    (hfll : { s.mem with vmAllocator := vm' }.fillZero r.base r.size.get = .ok mem) : { s with mem }.Inv := by
  have hf := (fillZero_ok hfll).2
  have hvw : { s with mem }.view = s.view.setVm vm' := by
    rw [view_setVm hf.heap, hf.vm]
  refine ⟨?_, fun x hx => ?_⟩
  · rw [hvw]
    exact hs.heaps.freed hr hvm hap
  · rw [hvw]
    rw [hf.flag]
    obtain ⟨hx₁, hnot⟩ := hf.bytes x hx
    exact (Heaps.mayHold_freed hs.heaps hr (hs.zero x hx₁)).resolve_right hnot

theorem vmFree_ok (hs : s.Inv) (hptr : ptr < 2 ^ 32) (hlt : size < 2 ^ 32)
    (heq : s.mem.vmFree ptr size = .ok mem)
    (harn : 0 < size → pageDown ptr + pageUp size ≤ 2 ^ 32 → pageDown ptr + pageUp size ≤ Mem.mainThreadStackLowEnd ∧
      ∀ i h, s.view.heaps i = some h → ∀ c ∈ h.intoVmChunks,
        c.hi ≤ pageDown ptr ∨ pageDown ptr + pageUp size ≤ c.base) : { s with mem }.Inv := by
  obtain ⟨⟨r, vm'⟩, hcl, hfll⟩ := bind_eq_ok.mp heq
  have hpos : 0 < size := by
    refine Nat.pos_of_ne_zero ?_
    rintro rfl
    cases hcl
  have hfit : pageDown ptr + pageUp size ≤ 2 ^ 32 := by
    by_contra hwp
    exact VMAllocator.deallocate_panics hs.heaps.vm hptr hlt (by omega) _ hcl
  obtain ⟨hin, hap⟩ := harn hpos hfit
  have htop : ∀ c, c ∈ s.mem.vmAllocator.usedChunks ∨ c ∈ s.mem.vmAllocator.unusedChunks.chunks → c.hi = 2 ^ 32 →
      pageDown ptr ≤ c.base := fun c hc htop => by
    have hc : arena.Holds c := hc.elim hs.heaps.vm.holds_used hs.heaps.vm.holds_unused
    have hhi : c.hi ≤ 0 + Mem.mainThreadStackLowEnd := hc.2
    have hsac : Mem.mainThreadStackLowEnd < 2 ^ 32 := by decide
    omega
  obtain ⟨r', t', hcl', hbs, hsi, -, hfrd, hinv⟩ :=
    VMAllocator.deallocate_spec hs.heaps.vm hptr hpos (Nat.zero_le _) (by simpa [arena] using hin) htop
  have hrt : (r, vm') = (r', t') := Except.ok.inj (hcl.symm.trans hcl')
  cases hrt
  refine hs.freedPages hfrd hinv (fun i h hi c hc => ?_) hfll
  have hr := r.hi_eq
  have := hap i h hi c hc
  unfold Chunk.Apart
  omega

/-- In the course of `destroy_heap`, with the heap out of the table: the chunks of `l` are still to be given back. -/
structure Leaving (zones : ι → Option HeapAllocator) (l : List Chunk) (m : Mem) : Prop where
  inv : (⟨m, zones⟩ : Memory ι).Inv
  nodup : l.Nodup
  used : ∀ c ∈ l, c ∈ m.vmAllocator.usedChunks
  unowned : ∀ i h, (⟨m, zones⟩ : Memory ι).view.heaps i = some h → ∀ c ∈ h.intoVmChunks, c ∉ l

theorem Leaving.vmFree {zones : ι → Option HeapAllocator} {c} {l} {m : Mem}
    (h : Leaving zones (c :: l) m) (hfr : m.vmFree c.base c.size.get = .ok mem) : Leaving zones l mem := by
  have hs := h.inv
  obtain ⟨hc, hnd⟩ := List.nodup_cons.mp h.nodup
  have hcu := h.used c List.mem_cons_self
  obtain ⟨vm', hdll, hfrd, hvm, hvms⟩ := VMAllocator.deallocate_used hs.heaps.vm hcu
  change m.vmAllocator.deallocate _ _ = _ at hdll
  simp only [Mem.vmFree, hdll, ok_bind] at hfr
  have hap := fun i h₁ hi d hd => hs.heaps.vm.used.apart d ((hs.heaps.heap i h₁ hi).owned d hd) c hcu
      fun heq => h.unowned i h₁ hi d hd (heq ▸ List.mem_cons_self)
  have hf := (fillZero_ok hfr).2
  refine ⟨hs.freedPages hfrd hvm hap hfr, hnd, fun d hd => ?_, fun i h₁ hi d hd hdl => ?_⟩
  · rw [hf.vm]
    exact (hvms d).mpr ⟨h.used d (List.mem_cons_of_mem c hd), fun heq => hc (heq ▸ hd)⟩
  · have hi : (⟨m, zones⟩ : Memory ι).view.heaps i = some h₁ := by
      rw [← hi]
      simp [view, hf.heap]
    exact h.unowned i h₁ hi d hd (List.mem_cons_of_mem c hdl)

variable [DecidableEq ι]

theorem view_store_some (hvm : mem.vmAllocator = vm)
    (hdef : mem.heapAllocator = s.mem.heapAllocator) : (s.store (some z) g mem).view = s.view.set (some z) g vm := by
  simp only [view, store, Heaps.set, hvm, hdef, Heaps.mk.injEq, true_and]
  funext k
  cases k with
  | none => simp
  | some z' =>
    by_cases hz : z' = z
    · subst hz
      simp
    · simp [hz]

theorem view_store_none (hvm : mem.vmAllocator = vm)
    (hdef : mem.heapAllocator = some h) : (s.store none g mem).view = s.view.set none (some h) vm := by
  simp only [view, store, Heaps.set, hvm, hdef, Heaps.mk.injEq, true_and]
  funext k
  cases k <;> simp

/-- The heap and the allocator of pages that an operation works on: those of the state `H`, in which the default
    heap has been created if it was needed. -/
structure Borrowed (s : Memory ι) (k : Option ι) (g : Option HeapAllocator) (h : HeapAllocator) (H : Heaps (Option ι)) :
    Prop where
  inv : Heaps.Inv arena H
  heap : H.heaps k = some h
  external : ∀ f ∈ h.externalChunks, ∃ h₀, s.view.heaps k = some h₀ ∧ f ∈ h₀.externalChunks
  mayHold : ∀ z x, s.view.MayHold z x → H.MayHold z x
  given : ∀ h' vm', ∃ g' mem, s.mem.putBack g vm' h' = (g', mem) ∧ (s.store k g' mem).given k = .ok g' ∧
    (s.store k g' mem).view = H.set k (some h') vm' ∧ mem.bytes = s.mem.bytes ∧
    mem.zeroMemoryOnFree = s.mem.zeroMemoryOnFree

theorem borrow (hs : Heaps.Inv arena s.view) (hg : s.given k = .ok g)
    (heq : s.mem.allocatorsMut g = .ok (vm, h)) : ∃ H, H.vm = vm ∧ Borrowed s k g h H := by
  cases k with
  | some z =>
    unfold Memory.given at hg
    cases hz : s.zones z with
    | none => simp [hz] at hg
    | some h₀ =>
      simp only [hz, Except.ok.injEq] at hg
      subst hg
      obtain ⟨rfl, rfl⟩ := heq
      refine ⟨s.view, rfl, hs, hz, fun f hf => ⟨_, hz, hf⟩, fun _ _ => id, fun h' vm' => ?_⟩
      refine ⟨some h', { s.mem with vmAllocator := vm' }, rfl, ?_, view_store_some rfl rfl, rfl, rfl⟩
      simp [Memory.given, store]
  | none =>
    obtain rfl : g = none := by
      simpa [Memory.given, eq_comm] using hg
    cases hdef : s.mem.heapAllocator with
    | some h₀ =>
      simp only [Mem.allocatorsMut, hdef, Except.ok.injEq, Prod.mk.injEq] at heq
      obtain ⟨rfl, rfl⟩ := heq
      refine ⟨s.view, rfl, hs, hdef, fun f hf => ⟨_, hdef, hf⟩, fun _ _ => id, fun h' vm' => ?_⟩
      exact ⟨none, { s.mem with vmAllocator := vm', heapAllocator := some h' }, rfl, rfl, view_store_none rfl rfl, rfl, rfl⟩
    | none =>
      simp only [Mem.allocatorsMut, hdef] at heq
      have hab : s.view.heaps none = none := hdef
      have hlt : HeapAllocator.heapChunkSize < 2 ^ 32 := by decide
      rcases HeapAllocator.new_spec hs.vm hlt with ⟨p, herr, -⟩ | ⟨h₀, vm₀, hok, hce⟩
      · change HeapAllocator.new s.mem.vmAllocator _ = _ at herr
        simp [herr] at heq
      · change HeapAllocator.new s.mem.vmAllocator _ = _ at hok
        simp only [hok, ok_bind, Except.ok.injEq, Prod.mk.injEq] at heq
        obtain ⟨rfl, rfl⟩ := heq
        have hinv : Heaps.Inv arena (s.view.set none (some h₀) vm₀) := by
          refine hs.set (hce.vmInv hs.vm) ?_ ?_
          · rintro _ ⟨⟩
            exact hce.inv
          · rw [hab]
            exact hce.frame hs.vm
        refine ⟨s.view.set none (some h₀) vm₀, rfl, hinv, by simp [Heaps.set], fun f hf => ?_,
          fun z x hx => Heaps.mayHold_created hs hab hce hx, fun h' vm' => ?_⟩
        · cases hce with
          | backed => exact absurd hf (ChunkMap.not_mem_empty f)
        · refine ⟨none, { s.mem with vmAllocator := vm', heapAllocator := some h' }, rfl, rfl, ?_, rfl, rfl⟩
          rw [view_store_none rfl rfl]
          simp [Heaps.set]

theorem view_store_filled (h : Filled mem mem' ptr count) : (s.store k g mem').view = (s.store k g mem).view := by
  cases k <;> simp [view, store, h.vm, h.heap]

theorem given_store_filled (h : (s.store k g mem).given k = .ok g) : (s.store k g mem').given k = .ok g := by
  cases k with
  | none | some z => exact h

theorem mem_store : (s.store k g mem).mem = mem := by
  cases k <;> rfl

theorem Inv.filled (h : (s.store k g mem).Inv) (hf : Filled mem mem' ptr count) : (s.store k g mem').Inv where
  heaps := view_store_filled (k := k) hf ▸ h.heaps
  zero := fun x hx => by
    have hzr := h.zero x
    rw [mem_store] at hx hzr ⊢
    rw [view_store_filled hf, hf.flag]
    exact hzr (hf.bytes x hx).1

/-- What an allocation leaves: a sound memory, and `size` bytes at the pointer that are zero and live. -/
structure Fresh (s : Memory ι) (k : Option ι) (g : Option HeapAllocator) (mem : Mem) (ptr size : Nat) : Prop where
  inv : (s.store k g mem).Inv
  given : (s.store k g mem).given k = .ok g
  flag : mem.zeroMemoryOnFree = s.mem.zeroMemoryOnFree
  zero : ∀ x, ptr ≤ x → x < ptr + size → mem.bytes x = 0
  live : ∀ x, ptr ≤ x → x < ptr + size → (s.store k g mem).view.LiveAt x
  external : ∀ h f, (s.store k g mem).view.heaps k = some h → f ∈ h.externalChunks →
    f.size.get ≤ HeapAllocator.heapAllocationThreshold → ∃ h₀, s.view.heaps k = some h₀ ∧ f ∈ h₀.externalChunks

section
variable (hs : s.Inv) (hg : s.given k = .ok g) (hlt : size < 2 ^ 32)
  (heq : s.mem.allocInHeap g size = .ok (ptr, g', mem))
include hs hg hlt heq

theorem allocInHeap_ok : Fresh s k g' mem ptr size := by
  obtain ⟨⟨vm, h⟩, hbr, heq⟩ := bind_eq_ok.mp heq
  obtain ⟨H, rfl, hb⟩ := borrow hs.heaps hg hbr
  have hinv := hb.inv.heap k h hb.heap
  rcases HeapAllocator.alloc_spec hb.inv.vm hinv hlt with ⟨p, herr, -⟩ | ⟨o, h', vm', hok, hsi, hal⟩
  · simp [herr] at heq
  cases o with
  | none => simp [hok] at heq
  | some a =>
    obtain ⟨g₁, mem₁, hput, hgn, hvw, hby, hfg⟩ := hb.given h' vm'
    simp only [hok, ok_bind, hput] at heq
    have hle : size ≤ a.size.get := by
      cases hal with
      | external _ hs => exact hs ▸ Nat.le_trans hsi (le_pageUp _)
      | inside _ hs | grown _ hs => exact hs ▸ hsi
    have hhas : ∀ x, a.base ≤ x → x < a.base + size → a.Has x := fun x hlo hhi => by
      have := a.hi_eq
      exact ⟨hlo, by omega⟩
    have hlv : ∀ x, a.base ≤ x → x < a.base + size → (s.store k g₁ mem₁).view.LiveAt x := fun x hlo hhi => by
      rw [hvw]
      exact .inl ⟨k, Heaps.liveIn_set_self hal.live_new (hhas x hlo hhi)⟩
    have hinv₁ : (s.store k g₁ mem₁).Inv := by
      refine ⟨?_, fun x hx => ?_⟩
      · rw [hvw]
        exact hb.inv.set_some hb.heap (hal.inv hb.inv.vm hinv)
      · rw [mem_store, hby] at hx
        rw [hvw, mem_store, hfg]
        exact Heaps.mayHold_allocated hb.inv hb.heap hal (hb.mayHold _ x (hs.zero x hx))
    have hext : ∀ h₁ f, (s.store k g₁ mem₁).view.heaps k = some h₁ → f ∈ h₁.externalChunks →
        f.size.get ≤ HeapAllocator.heapAllocationThreshold → ∃ h₀, s.view.heaps k = some h₀ ∧ f ∈ h₀.externalChunks := by
      intro h₁ f hh hf hsl
      rw [hvw] at hh
      obtain rfl : h' = h₁ := by simpa [Heaps.set] using hh
      exact hb.external f (hal.external_old hf hsl)
    by_cases hfll : (!mem₁.zeroMemoryOnFree && decide (a.size.get ≤ HeapAllocator.heapAllocationThreshold)) = true
    · rw [if_pos hfll] at heq
      obtain ⟨mem₂, hmem₂, heq⟩ := bind_eq_ok.mp heq
      cases heq
      have hf := (fillZero_ok hmem₂).2
      refine ⟨hinv₁.filled hf, given_store_filled hgn, hf.flag.trans hfg, hf.inside, ?_, ?_⟩
      · rw [view_store_filled hf]
        exact hlv
      · rw [view_store_filled hf]
        exact hext
    · rw [if_neg hfll] at heq
      cases heq
      have hz : s.mem.zeroMemoryOnFree = true ∨ HeapAllocator.heapAllocationThreshold < a.size.get := by
        rw [hfg] at hfll
        cases hz : s.mem.zeroMemoryOnFree with
        | true => exact .inl rfl
        | false =>
          rw [hz] at hfll
          exact .inr (Nat.lt_of_not_le (by simpa using hfll))
      refine ⟨hinv₁, hgn, hfg, fun x hlo hhi => ?_, hlv, hext⟩
      by_contra hx
      rw [hby] at hx
      exact Heaps.not_mayHold_of_allocated hb.inv hb.heap hal hz (hhas x hlo hhi) (hb.mayHold _ x (hs.zero x hx))

theorem not_liveAt_of_allocInHeap : ¬s.view.LiveAt ptr := by
  obtain ⟨⟨vm, h⟩, hbr, heq⟩ := bind_eq_ok.mp heq
  obtain ⟨H, rfl, hb⟩ := borrow hs.heaps hg hbr
  rcases HeapAllocator.alloc_spec hb.inv.vm (hb.inv.heap k h hb.heap) hlt with ⟨p, herr, -⟩ | ⟨o, h', vm', hok, -, hal⟩
  · simp [herr] at heq
  cases o with
  | none => simp [hok] at heq
  | some a =>
    have hptr : a.base = ptr := by
      simp only [hok, ok_bind] at heq
      split at heq
      · obtain ⟨mem₂, -, heq⟩ := bind_eq_ok.mp heq
        cases heq
        rfl
      · cases heq
        rfl
    subst hptr
    intro hlv
    exact Heaps.not_mayHold_of_allocated hb.inv hb.heap hal (.inl rfl) ⟨Nat.le_refl _, a.base_lt_hi⟩
      (hb.mayHold true _ hlv)

end

theorem calloc_ok (hs : s.Inv) (hlt : size < 2 ^ 32) (heq : s.mem.calloc size = .ok (ptr, mem)) :
    { s with mem }.Inv ∧ ∀ x, ptr ≤ x → x < ptr + size → mem.bytes x = 0 := by
  obtain ⟨⟨p, g', mem₁⟩, hal, heq⟩ := bind_eq_ok.mp heq
  obtain ⟨mem₂, hfll, heq⟩ := bind_eq_ok.mp heq
  cases heq
  have hfh := allocInHeap_ok hs (k := none) rfl hlt hal
  have hf := (fillZero_ok hfll).2
  exact ⟨hfh.inv.filled hf, hf.inside⟩

theorem valloc_ok (hs : s.Inv) (hlt : size < 2 ^ 32) (heq : s.mem.valloc size = .ok (ptr, mem)) :
    { s with mem }.Inv ∧ ∀ x, ptr ≤ x → x < ptr + size → mem.bytes x = 0 := by
  obtain ⟨⟨vm, h⟩, hbr, heq⟩ := bind_eq_ok.mp heq
  obtain ⟨H, rfl, hb⟩ := borrow (k := none) hs.heaps rfl hbr
  have hinv := hb.inv.heap none h hb.heap
  rcases HeapAllocator.valloc_spec hb.inv.vm hinv hlt with ⟨p, herr, -⟩ | hno | ⟨c, a, h', vm', hok, hsi, he⟩
  · simp [herr] at heq
  · simp [hno] at heq
  · obtain ⟨g₁, mem₁, hput, -, hvw, hby, hfg⟩ := hb.given h' vm'
    simp only [hok, ok_bind, hput] at heq
    split at heq
    · cases heq
    · obtain ⟨mem₂, hfll, heq⟩ := bind_eq_ok.mp heq
      cases heq
      have hf := (fillZero_ok hfll).2
      have hinv₁ : (s.store none g₁ mem₁).Inv := by
        refine ⟨?_, fun x hx => ?_⟩
        · rw [hvw]
          exact hb.inv.set_some hb.heap ⟨he.taken.inv hb.inv.vm, he.inv hb.inv.vm hinv, he.frame hb.inv.vm hinv⟩
        · rw [mem_store, hby] at hx
          rw [hvw, mem_store, hfg]
          exact Heaps.mayHold_external hb.inv hb.heap he (hb.mayHold _ x (hs.zero x hx))
      refine ⟨hinv₁.filled hf, fun x hlo hhi => hf.inside x hlo ?_⟩
      have := le_pageUp size
      omega

theorem freeInHeap_ok (hs : s.Inv) (hg : s.given k = .ok g) {n : Nat}
    (heq : s.mem.freeInHeap g ptr = .ok (n, g', mem))
    (hlrg : s.mem.zeroMemoryOnFree = false → ∀ h f, s.view.heaps k = some h → f ∈ h.externalChunks → f.base = ptr →
      HeapAllocator.heapAllocationThreshold < f.size.get) :
    (s.store k g' mem).Inv := by
  obtain ⟨⟨vm, h⟩, hbr, heq⟩ := bind_eq_ok.mp heq
  obtain ⟨H, rfl, hb⟩ := borrow hs.heaps hg hbr
  have hinv := hb.inv.heap k h hb.heap
  obtain ⟨n', h', vm', hok, hr⟩ := HeapAllocator.free_spec hb.inv.vm hinv ptr
  obtain ⟨g₁, mem₁, hput, -, hvw, hby, hfg⟩ := hb.given h' vm'
  simp only [hok, ok_bind, hput] at heq
  have hhps : Heaps.Inv arena (s.store k g₁ mem₁).view := by
    rw [hvw]
    exact hb.inv.set_some hb.heap (hr.inv hb.inv.vm hinv)
  have hmay : ∀ x, mem₁.bytes x ≠ 0 → (s.store k g₁ mem₁).view.MayHold mem₁.zeroMemoryOnFree x ∨
      (ptr ≤ x ∧ x < ptr + n' ∧ (mem₁.zeroMemoryOnFree = false → HeapAllocator.heapAllocationThreshold < n')) := by
    intro x hx
    rw [hby] at hx
    rw [hvw, hfg]
    refine (Heaps.mayHold_released hb.inv hb.heap hr (hb.mayHold _ x (hs.zero x hx))).imp_right ?_
    rintro ⟨hlo, hhi, hext⟩
    refine ⟨hlo, hhi, fun hz => ?_⟩
    obtain ⟨f, hf, hbs, rfl⟩ := hext hz
    obtain ⟨h₀, hh₀, hf₀⟩ := hb.external f hf
    exact hlrg hz h₀ f hh₀ hf₀ hbs
  have hfil : ∀ {mem₂ : Mem}, mem₁.fillZero ptr n' = .ok mem₂ → (s.store k g₁ mem₂).Inv := by
    intro mem₂ hfll
    have hf := (fillZero_ok hfll).2
    refine ⟨view_store_filled (k := k) hf ▸ hhps, fun x hx => ?_⟩
    rw [mem_store] at hx ⊢
    rw [view_store_filled hf, hf.flag]
    obtain ⟨hx₁, hnot⟩ := hf.bytes x hx
    exact (hmay x hx₁).resolve_right fun hin => hnot ⟨hin.1, hin.2.1⟩
  split at heq
  · obtain ⟨mem₂, hfll, heq⟩ := bind_eq_ok.mp heq
    cases heq
    exact hfil hfll
  · rename_i hsl
    split at heq
    · obtain ⟨mem₂, hfll, heq⟩ := bind_eq_ok.mp heq
      cases heq
      exact hfil hfll
    · rename_i hz
      cases heq
      refine ⟨hhps, fun x hx => ?_⟩
      rw [mem_store] at hx ⊢
      exact (hmay x hx).resolve_right fun hin => hsl (hin.2.2 (by simpa using hz))

theorem destroyHeap_ok (hs : s.Inv) (hz : s.zones z = some h)
    (heq : s.mem.destroyHeap h = .ok mem) : (⟨mem, update s.zones z none⟩ : Memory ι).Inv := by
  have hvw : (⟨s.mem, update s.zones z none⟩ : Memory ι).view = s.view.set (some z) none s.view.vm :=
    @view_store_some _ s _ s.mem z _ _ rfl rfl
  have hi : s.view.heaps (some z) = some h := hz
  have hlvn : Leaving (update s.zones z none) h.intoVmChunks s.mem := by
    refine ⟨⟨?_, fun x hx => ?_⟩, (hs.heaps.heap _ h hi).nodup, (hs.heaps.heap _ h hi).owned, fun i h' hi' c hc => ?_⟩
    · rw [hvw]
      exact hs.heaps.remove (some z)
    · rw [hvw]
      exact Heaps.mayHold_remove hs.heaps (hs.zero x hx)
    rw [hvw] at hi'
    by_cases hiz : i = some z
    · subst hiz
      simp [Heaps.set] at hi'
    · exact hs.heaps.separate i (some z) h' h (by simpa [Heaps.set, hiz] using hi') hi hiz c hc
  exact (foldlM_invariant _ (fun _ _ _ _ hl hfr => hl.vmFree hfr) hlvn heq).inv

theorem createHeap_ok (hs : s.Inv) (hz : s.zones z = none) (hlt : size < 2 ^ 32)
    (heq : s.mem.createHeap size = .ok (h, mem)) : (s.store (some z) (some h) mem).Inv := by
  obtain ⟨⟨h', vm'⟩, hnew, heq⟩ := bind_eq_ok.mp heq
  cases heq
  have hab : s.view.heaps (some z) = none := hz
  rcases HeapAllocator.new_spec hs.heaps.vm hlt with ⟨p, herr, -⟩ | ⟨h₀, vm₀, hok, hce⟩
  · have := hnew.symm.trans herr
    cases this
  · have hrt := hnew.symm.trans hok
    cases hrt
    have hvw : (s.store (some z) (some h) { s.mem with vmAllocator := vm' }).view = s.view.set (some z) (some h) vm' :=
      view_store_some rfl rfl
    refine ⟨?_, fun x hx => ?_⟩
    · rw [hvw]
      refine hs.heaps.set (hce.vmInv hs.heaps.vm) ?_ ?_
      · rintro _ ⟨⟩
        exact hce.inv
      · rw [hab]
        exact hce.frame hs.heaps.vm
    · rw [hvw]
      exact Heaps.mayHold_created hs.heaps hab hce (hs.zero x hx)

theorem store_store {g₁ g₂} {m₁ m₂ : Mem} : (s.store k g₁ m₁).store k g₂ m₂ = s.store k g₂ m₂ := by
  cases k <;> simp [store]

theorem findAllocatedSize_of_external {f} (hf : f ∈ h.externalChunks) :
    h.findAllocatedSize f.base = .ok f.size.get := by
  unfold HeapAllocator.findAllocatedSize
  rw [ChunkMap.getSizeWithBase_eq_some.mpr hf]

/-- The guest may write what it likes to live memory. -/
theorem Inv.written (h : (s.store k g mem).Inv) (hvm : mem'.vmAllocator = mem.vmAllocator)
    (hhea : mem'.heapAllocator = mem.heapAllocator) (hfg : mem'.zeroMemoryOnFree = mem.zeroMemoryOnFree)
    (hby : ∀ x, mem'.bytes x ≠ mem.bytes x → (s.store k g mem).view.LiveAt x) : (s.store k g mem').Inv := by
  have hvw : (s.store k g mem').view = (s.store k g mem).view := by
    cases k <;> simp [view, store, hvm, hhea]
  refine ⟨hvw ▸ h.heaps, fun x hx => ?_⟩
  rw [hvw, mem_store, hfg]
  by_cases heq : mem'.bytes x = mem.bytes x
  · have hzr := h.zero x
    rw [mem_store] at hx hzr
    exact hzr (heq ▸ hx)
  · exact (hby x heq).mayHold h.heaps

theorem memmove_ok {dest src : Nat} (h : mem.memmove dest src size = .ok mem') :
    mem'.vmAllocator = mem.vmAllocator ∧ mem'.heapAllocator = mem.heapAllocator ∧
      mem'.zeroMemoryOnFree = mem.zeroMemoryOnFree ∧ ∀ x, mem'.bytes x ≠ mem.bytes x → dest ≤ x ∧ x < dest + size := by
  unfold Mem.memmove at h
  split at h
  · cases h
    refine ⟨rfl, rfl, rfl, fun x hx => ?_⟩
    by_contra hout
    exact hx (if_neg hout)
  · cases h

theorem reallocInHeap_ok (hs : s.Inv) (hg : s.given k = .ok g) {oldPtr : Nat} (hlt : size < 2 ^ 32)
    (heq : s.mem.reallocInHeap g oldPtr size = .ok (ptr, g', mem))
    (hsl : s.mem.zeroMemoryOnFree = false → ∀ h f, s.view.heaps k = some h → f ∈ h.externalChunks → f.base = oldPtr →
      f.size.get ≤ HeapAllocator.heapAllocationThreshold → size ≤ f.size.get) :
    (s.store k g' mem).Inv := by
  unfold Mem.reallocInHeap at heq
  split at heq
  · exact (allocInHeap_ok hs hg hlt heq).inv
  · obtain ⟨⟨oldSize, g₁, mem₁⟩, hsi, heq⟩ := bind_eq_ok.mp heq
    obtain ⟨⟨vm, h⟩, hbr, hsi⟩ := bind_eq_ok.mp hsi
    obtain ⟨n, hfn, hsi⟩ := bind_eq_ok.mp hsi
    obtain ⟨H, rfl, hb⟩ := borrow hs.heaps hg hbr
    obtain ⟨g₂, mem₂, hput, hgn, hvw, hby, hfg⟩ := hb.given h H.vm
    simp only [hput] at hsi
    cases hsi
    have hsm : H.set k (some h) H.vm = H := by
      simp [Heaps.set, ← hb.heap]
    rw [hsm] at hvw
    -- The default heap may have been created by now; nothing else has changed.
    have hinv₁ : (s.store k g₁ mem₁).Inv := by
      refine ⟨hvw ▸ hb.inv, fun x hx => ?_⟩
      rw [mem_store, hby] at hx
      rw [hvw, mem_store, hfg]
      exact hb.mayHold _ x (hs.zero x hx)
    dsimp only at heq
    split at heq
    · cases heq
      exact hinv₁
    · rename_i hgow
      obtain ⟨⟨newPtr, g₂, mem₂⟩, hal, heq⟩ := bind_eq_ok.mp heq
      obtain ⟨mem₃, hmov, heq⟩ := bind_eq_ok.mp heq
      obtain ⟨⟨n', g₃, mem₄⟩, hfr, heq⟩ := bind_eq_ok.mp heq
      cases heq
      have hfh := allocInHeap_ok hinv₁ hgn hlt (by rw [mem_store]; exact hal)
      obtain ⟨hvm, hhea, hfg₃, hmo⟩ := memmove_ok hmov
      have hinv₃ : (s.store k g₂ mem₃).Inv := by
        rw [← store_store]
        refine hfh.inv.written hvm hhea hfg₃ fun x hx => ?_
        obtain ⟨hlo, hhi⟩ := hmo x hx
        exact hfh.live x hlo (by omega)
      have hgn₃ : (s.store k g₂ mem₃).given k = .ok g₂ := by
        have := hfh.given
        rw [store_store] at this
        exact given_store_filled this
      rw [← store_store]
      refine freeInHeap_ok hinv₃ hgn₃ (by rw [mem_store]; exact hfr) fun hz h' f hh' hf hbs => ?_
      -- A small external chunk at the old address would have been large enough.
      by_contra hle
      have hvw₃ : (s.store k g₂ mem₃).view = ((s.store k g₁ mem₁).store k g₂ mem₂).view := by
        rw [store_store]
        cases k <;> simp [view, store, hvm, hhea]
      obtain ⟨h₁, hh₁, hf₁⟩ := hfh.external h' f (hvw₃ ▸ hh') hf (Nat.le_of_not_lt hle)
      obtain rfl : h = h₁ := Option.some_inj.mp (hb.heap.symm.trans (hvw ▸ hh₁))
      obtain ⟨h₀, hh₀, hf₀⟩ := hb.external f hf₁
      rw [mem_store, hfg₃, hfh.flag, mem_store, hfg] at hz
      have hsz := hsl hz h₀ f hh₀ hf₀ hbs (Nat.le_of_not_lt hle)
      rw [← hbs, findAllocatedSize_of_external hf₁] at hfn
      cases hfn
      exact hgow hsz

end Memory
end TouchHLE.Mem
