import TouchHLE.Lib.Run
import TouchHLE.Theorems.Mem.VM

/-! Runs of the allocator of pages. In the arena the partition survives every call that does not overflow a rounded size and
    does not free inside a chunk that reaches the top of the 32-bit space. -/

namespace TouchHLE.Mem
open Lib VMAllocator
variable {s t : VMAllocator} {A : Arena} {a n : Nat}

inductive VMCall where
  | allocate (address : Option UInt32) (size : UInt32)
  | deallocate (address : UInt32) (size : UInt32)

inductive VMResult where
  | allocated (result : Except VMAllocError Chunk)
  | freed (chunk : Chunk)

namespace VMCall

def size : VMCall → Nat
  | .allocate _ size => size.toNat
  | .deallocate _ size => size.toNat

def address : VMCall → Option Nat
  | .allocate address _ => address.map UInt32.toNat
  | .deallocate address _ => some address.toNat

/-- The rounded range `[pageDown a, pageDown a + pageUp n)` of a call, before it is reduced to 32 bits, lies
    in the arena. -/
def InArena (A : Arena) (c : VMCall) : Prop :=
  0 < c.size ∧ ∀ a ∈ c.address, A.base ≤ pageDown a ∧ pageDown a + pageUp c.size ≤ A.base + A.len

instance (A : Arena) (c : VMCall) : Decidable (c.InArena A) := inferInstanceAs (Decidable (_ ∧ _))

end VMCall

namespace VMAllocator

def call (s : VMAllocator) : VMCall → Except Panic (VMResult × VMAllocator)
  | .allocate address size => do
    let (r, t) ← s.allocate (address.map UInt32.toNat) size.toNat
    .ok (.allocated r, t)
  | .deallocate address size => do
    let (c, t) ← s.deallocate address.toNat size.toNat
    .ok (.freed c, t)

theorem call_allocate {address} {size} {r}
    (h : s.allocate (address.map UInt32.toNat) size.toNat = .ok (r, t)) :
    s.call (.allocate address size) = .ok (.allocated r, t) := by
  simp [call, h]

theorem call_deallocate {address size} {r}
    (h : s.deallocate address.toNat size.toNat = .ok (r, t)) : s.call (.deallocate address size) = .ok (.freed r, t) := by
  simp [call, h]

/-! ### The calls on rounded ranges -/

section Calls

theorem allocate_none_spec (h : Inv A s) (hpos : 0 < n) (hn : n ≤ 2 ^ 32 - pageSize) :
    (s.allocate none n = .ok (.error .noSpace, s) ∧ ∀ c ∈ s.unusedChunks.chunks, c.size.get < pageUp n) ∨
      ∃ c r t, s.allocate none n = .ok (.ok r, t) ∧ r.size.get = pageUp n ∧ Taken s t c r := by
  have hlt := pageUp_lt_iff.mpr hn
  simp only [allocate, nextMultipleOf_of_fits hlt]
  exact allocateAny_spec h (pageSize_dvd_pageUp n) (pageSize_le_pageUp hpos) hlt

/-- A size that leaves no room for rounding becomes zero, which an assertion refuses. -/
theorem allocate_none_panics (hlt : n < 2 ^ 32) (hn : 2 ^ 32 - pageSize < n) :
    s.allocate none n = .error .sizeNotPageMultiple := by
  simp only [allocate, nextMultipleOf_of_wraps hlt hn, allocateAny]
  rfl

theorem allocate_some_panics (ha : a < 2 ^ 32) (hlt : n < 2 ^ 32) (hn : 2 ^ 32 - pageSize < n) :
    s.allocate (some a) n = .error .sizeNotPageMultiple := by
  have had : ¬pageDown a % pageSize ≠ 0 := fun hne => hne (Nat.mod_eq_zero_of_dvd (pageSize_dvd_pageDown a))
  simp only [allocate, nextMultipleOf_of_wraps hlt hn, truncPage_eq ha, allocateAt, if_neg had]
  rfl

section
variable (h : Inv A s) (ha : a < 2 ^ 32) (hpos : 0 < n) (hn : n ≤ 2 ^ 32 - pageSize)
include h ha hpos hn

theorem allocate_some_ok {c}
    (hc : c ∈ s.unusedChunks.chunks) (hlo : c.base ≤ pageDown a) (hhi : pageDown a + pageUp n ≤ c.hi) :
    ∃ r t, s.allocate (some a) n = .ok (.ok r, t) ∧ r.base = pageDown a ∧ r.size.get = pageUp n ∧ Taken s t c r := by
  have hlt := pageUp_lt_iff.mpr hn
  simp only [allocate, nextMultipleOf_of_fits hlt, truncPage_eq ha]
  exact allocateAt_ok h (pageSize_dvd_pageDown a) (pageSize_dvd_pageUp n) (pageSize_le_pageUp hpos) hc hlo hhi

/-- The call fails unless one unused chunk contains both ends of the range, the last byte taken in 32 bits. -/
theorem allocate_some_err
    (hno : ∀ c ∈ s.unusedChunks.chunks, ¬(c.Has (pageDown a) ∧ c.Has (wrap (pageDown a + (pageUp n - 1))))) :
    ∃ e, s.allocate (some a) n = .ok (.error e, s) := by
  have hlt := pageUp_lt_iff.mpr hn
  have hle := pageSize_le_pageUp hpos
  obtain ⟨r, hr, hrb, -⟩ := Chunk.new_ok (Nat.lt_of_lt_of_le (by decide) hle)
  have hrs : r.size.get = pageUp n := (Chunk.new_eq_ok.mp hr).2
  simp only [allocate, nextMultipleOf_of_fits hlt, truncPage_eq ha]
  refine allocateAt_err h (pageSize_dvd_pageDown a) (pageSize_dvd_pageUp n) hle hr ?_
  rw [Chunk.lastByte, hrb, hrs]
  exact hno

theorem allocate_some_spec (hfit : pageDown a + pageUp n ≤ 2 ^ 32) : ((∃ e, s.allocate (some a) n = .ok (.error e, s)) ∧
        ∀ c ∈ s.unusedChunks.chunks, ¬(c.base ≤ pageDown a ∧ pageDown a + pageUp n ≤ c.hi)) ∨
      ∃ c r t, s.allocate (some a) n = .ok (.ok r, t) ∧ r.base = pageDown a ∧ r.size.get = pageUp n ∧ Taken s t c r := by
  have hup := pageSize_le_pageUp hpos
  have hps : 0 < pageSize := by decide
  by_cases hex : ∃ c ∈ s.unusedChunks.chunks, c.base ≤ pageDown a ∧ pageDown a + pageUp n ≤ c.hi
  · obtain ⟨c, hc, hlo, hhi⟩ := hex
    exact .inr ⟨c, allocate_some_ok h ha hpos hn hc hlo hhi⟩
  · have hno := fun c hc hen => hex ⟨c, hc, hen⟩
    refine .inl ⟨allocate_some_err h ha hpos hn fun c hc hbt => hno c hc ?_, hno⟩
    rw [wrap_of_lt (by omega)] at hbt
    unfold Chunk.Has at hbt
    omega

end

theorem deallocate_spec (h : Inv A s) (ha : a < 2 ^ 32) (hpos : 0 < n) (hlo : A.base ≤ pageDown a)
    (hhi : pageDown a + pageUp n ≤ A.base + A.len)
    (htop : ∀ c, c ∈ s.usedChunks ∨ c ∈ s.unusedChunks.chunks → c.hi = 2 ^ 32 → pageDown a ≤ c.base) :
    ∃ r t, s.deallocate a n = .ok (r, t) ∧ r.base = pageDown a ∧ r.size.get = pageUp n ∧
      ChunkMap.Aligned pageSize r ∧ Freed s t r ∧ Inv A t := by
  have hlen := A.len_lt
  have hft := A.fits
  have hup := pageSize_le_pageUp hpos
  have hps : 0 < pageSize := by decide
  obtain ⟨r, hr, hrb, hrh⟩ := Chunk.new_ok (n := pageUp n) (by omega)
  have hrs : r.size.get = pageUp n := (Chunk.new_eq_ok.mp hr).2
  have hag : ChunkMap.Aligned pageSize r := ⟨by omega, hrb ▸ pageSize_dvd_pageDown a,
    hrh ▸ Nat.dvd_add (pageSize_dvd_pageDown a) (pageSize_dvd_pageUp n)⟩
  obtain ⟨t, ht, hfrd, hinv⟩ := deallocate_ok h (hrb.trans (truncPage_eq ha).symm)
    (hrs.trans (nextMultipleOf_of_fits (by omega)).symm) hag ⟨by omega, by omega⟩
    (fun c hc htop' => hrb ▸ htop c (.inl hc) htop') (fun c hc htop' => hrb ▸ htop c (.inr hc) htop')
  exact ⟨r, t, ht, hrb, hrs, hag, hfrd, hinv⟩

end Calls

/-- What a call must meet, beyond lying in the arena, for the arithmetic of the source not to wrap: an
    allocation anywhere has a size that can be rounded, and a deallocation does not begin inside a chunk that
    reaches the top of the 32-bit space. -/
def Safe (s : VMAllocator) : VMCall → Prop
  | .allocate none size => size.toNat ≤ 2 ^ 32 - pageSize
  | .allocate (some _) _ => True
  | .deallocate address _ =>
    ∀ c, c ∈ s.usedChunks ∨ c ∈ s.unusedChunks.chunks → c.hi = 2 ^ 32 → pageDown address.toNat ≤ c.base

theorem size_le_of_inArena (hlo : A.base ≤ pageDown a)
    (hhi : pageDown a + pageUp n ≤ A.base + A.len) : n ≤ 2 ^ 32 - pageSize := by
  have := A.len_lt
  exact pageUp_lt_iff.mp (by omega)

theorem call_ok (h : Inv A s) {c} (hc : c.InArena A) (hsf : s.Safe c) :
    ∃ r t, s.call c = .ok (r, t) ∧ Inv A t := by
  obtain ⟨hpos, hrn⟩ := hc
  match c with
  | .allocate none size =>
    rcases allocate_none_spec h hpos hsf with ⟨heq, -⟩ | ⟨c, r, t, heq, -, ht⟩
    · exact ⟨_, s, call_allocate heq, h⟩
    · exact ⟨_, t, call_allocate heq, ht.inv h⟩
  | .allocate (some address) size =>
    obtain ⟨hlo, hhi⟩ := hrn address.toNat rfl
    have hft := A.fits
    rcases allocate_some_spec h address.toNat_lt hpos (size_le_of_inArena hlo hhi) (by omega) with
      ⟨⟨e, heq⟩, -⟩ | ⟨c, r, t, heq, -, -, ht⟩
    · exact ⟨_, s, call_allocate heq, h⟩
    · exact ⟨_, t, call_allocate heq, ht.inv h⟩
  | .deallocate address size =>
    obtain ⟨hlo, hhi⟩ := hrn address.toNat rfl
    obtain ⟨r, t, heq, -, -, -, -, hinv⟩ := deallocate_spec h address.toNat_lt hpos hlo hhi hsf
    exact ⟨_, t, call_deallocate heq, hinv⟩

theorem inv_new {s₀} (hnew : new A.base A.len = .ok s₀) : Inv A s₀ := by
  obtain ⟨s, hs, hinv⟩ := new_ok A
  rw [hnew] at hs
  cases hs
  exact hinv

theorem inv_of_runs {s₀} (hnew : new A.base A.len = .ok s₀)
    (hrun : Runs call (fun s c => c.InArena A ∧ s.Safe c) s₀ s) : Inv A s := by
  refine hrun.invariant (inv_new hnew) fun s t c r hs hg hcl => ?_
  obtain ⟨r', t', hcl', ht⟩ := call_ok hs hg.1 hg.2
  rw [hcl] at hcl'
  cases hcl'
  exact ht

/-- In every run of safe calls in the arena, the chunks partition the arena, unused chunks do not touch, the
    size index is right, and the next safe call fails no assertion. -/
theorem partition_of_runs (A : Arena) (s₀ s : VMAllocator) (hnew : new A.base A.len = .ok s₀)
    (hrun : Runs call (fun s c => c.InArena A ∧ s.Safe c) s₀ s) :
    Inv A s ∧ ∀ c, c.InArena A → s.Safe c → ∃ r t, s.call c = .ok (r, t) ∧ Inv A t :=
  ⟨inv_of_runs hnew hrun, fun _ hc hsafe => call_ok (inv_of_runs hnew hrun) hc hsafe⟩

def twoPages : Arena := ⟨0x1000, 0x2000, by decide, by decide, by decide, by decide, by decide⟩

theorem partition_of_runs_twoPages :
    ∃ s₀ s r, new 0x1000 0x2000 = .ok s₀ ∧ s₀.call (.allocate none 1) = .ok (r, s) ∧ Inv twoPages s := by
  refine ⟨_, _, _, rfl, rfl, (partition_of_runs twoPages _ _ rfl
    (.step (a := .allocate none 1) .start ⟨by decide, ?_⟩ rfl)).1⟩
  unfold Safe
  decide

/-- A size that cannot be rounded up stops the program in an assertion, in the arena that the guest memory
    uses; and in an arena that ends at the top of the 32-bit space, freeing the second half of an
    unused chunk leaves two unused chunks that overlap. -/
theorem partition_fails :
    (∃ s₀, new 0 0xFFF00000 = .ok s₀ ∧ s₀.call (.allocate none 0xFFFFF001) = .error .sizeNotPageMultiple) ∧
      ∃ s₀ r t, new 0xFFFFE000 0x2000 = .ok s₀ ∧ s₀.call (.deallocate 0xFFFFF000 0x1000) = .ok (r, t) ∧
        t.unusedChunks.chunks.intoIter = [⟨0xFFFFE000, 0x2000, by decide⟩, ⟨0xFFFFF000, 0x1000, by decide⟩] :=
  ⟨⟨_, rfl, rfl⟩, _, _, _, rfl, rfl, rfl⟩

/-! ### Calls outside the arena -/

/-- A range that passes the end of the 32-bit space is refused by a lookup unless a chunk reaches over it
    from its wrapped end to its beginning. -/
theorem exists_of_overlappingChunks {m : ChunkMap} {r} {l} (h : m.overlappingChunks r = .ok l)
    (hwp : r.lastByte < r.base) : m.Has r.base := by
  unfold ChunkMap.overlappingChunks at h
  cases hls : m.chunks.lastWhere (· ≤ r.base) with
  | none =>
    rw [hls] at h
    simp [hwp] at h
  | some e =>
    obtain ⟨hmem, hb, -⟩ := OrdMap.lastWhere_eq_some hls
    have hb : e.1 ≤ r.base := by simpa using hb
    by_cases hlt : r.base < wrap (e.1 + e.2.get)
    · have : wrap (e.1 + e.2.get) ≤ e.1 + e.2.get := Nat.mod_le _ _
      exact ⟨⟨e.1, e.2⟩, hmem, hb, Nat.lt_of_lt_of_le hlt this⟩
    · rw [hls] at h
      simp [hlt, hwp] at h

/-- No chunk is both used and unused, so one of the two lookups panics. -/
theorem deallocate_panics (h : Inv A s) (ha : a < 2 ^ 32) (hn : n < 2 ^ 32)
    (hwp : 2 ^ 32 < pageDown a + pageUp n) (r : Chunk × VMAllocator) : s.deallocate a n ≠ .ok r := by
  intro hok
  unfold deallocate at hok
  simp only [bind_eq_ok, Chunk.new_eq_ok] at hok
  obtain ⟨freed, ⟨hbs, hsz⟩, used, hus, unused, huns, -⟩ := hok
  rw [truncPage_eq ha] at hbs
  by_cases hfit : n ≤ 2 ^ 32 - pageSize
  · have hlt := pageUp_lt_iff.mpr hfit
    rw [nextMultipleOf_of_fits hlt] at hsz
    have hpd := pageDown_le a
    have hls : freed.lastByte < freed.base := by
      have hmod : wrap (freed.base + (freed.size.get - 1)) = freed.base + (freed.size.get - 1) - 2 ^ 32 := by
        unfold wrap
        omega
      rw [Chunk.lastByte, hmod]
      omega
    simp only [ChunkMap.removeRange, SizeBucketedChunkMap.removeRange, bind_eq_ok] at hus huns
    obtain ⟨l, hl, -⟩ := hus
    obtain ⟨l', hl', -⟩ := huns
    exact h.not_has_both (exists_of_overlappingChunks hl hls) (exists_of_overlappingChunks hl' hls)
  · rw [nextMultipleOf_of_wraps hn (by omega)] at hsz
    have := freed.size.pos
    omega

/-- When one unused chunk contains both ends of the range, the call does not fail with an error: it goes
    through, or panics on the way. -/
theorem allocate_some_ne_err (h : Inv A s) (ha : a < 2 ^ 32)
    (hn : n ≤ 2 ^ 32 - pageSize) {c} (hc : c ∈ s.unusedChunks.chunks) (hlo : c.Has (pageDown a))
    (hhi : c.Has (wrap (pageDown a + (pageUp n - 1)))) (e : VMAllocError) :
    s.allocate (some a) n ≠ .ok (.error e, t) := by
  intro hok
  have hfit := h.spaced.fits c hc
  have hfn : s.unusedChunks.iter.find? (·.contains (pageDown a)) = some c := by
    rcases find_contains h (pageDown a) with ⟨-, hnn⟩ | ⟨d, hd, hdx, hfn⟩
    · exact absurd hlo (hnn c hc)
    · rw [hfn, h.spaced.eq_of_has hd hc hdx hlo]
  simp only [allocate, nextMultipleOf_of_fits (pageUp_lt_iff.mpr hn), truncPage_eq ha, allocateAt] at hok
  split at hok
  · cases hok
  · split at hok
    · cases hok
    · obtain ⟨chunk, hchu, hok⟩ := bind_eq_ok.mp hok
      obtain ⟨hb, hs⟩ := Chunk.new_eq_ok.mp hchu
      have htri : c.trisectBy chunk = some (c.difference chunk) := by
        have h₁ : c.contains chunk.base = true := hb ▸ (Chunk.contains_iff hfit).mpr hlo
        have h₂ : c.contains chunk.lastByte = true := by
          rw [Chunk.contains_iff hfit, Chunk.lastByte, hb, hs]
          exact hhi
        simp [Chunk.trisectBy, h₁, h₂]
      simp [hfn, htri, bind_eq_ok] at hok

theorem allocate_some_range (ha : a < 2 ^ 32) (hn : n ≤ 2 ^ 32 - pageSize) {r}
    (hok : s.allocate (some a) n = .ok (.ok r, t)) : r.base = pageDown a ∧ r.size.get = pageUp n := by
  simp only [allocate, nextMultipleOf_of_fits (pageUp_lt_iff.mpr hn), truncPage_eq ha, allocateAt] at hok
  split at hok
  · cases hok
  · split at hok
    · cases hok
    · obtain ⟨chunk, hchu, hok⟩ := bind_eq_ok.mp hok
      obtain rfl : chunk = r := by
        split at hok
        · cases hok
        · split at hok
          · cases hok
          · simp only [bind_eq_ok] at hok
            obtain ⟨_, _, _, _, _, _, _, _, hok⟩ := hok
            cases hok
            rfl
      exact Chunk.new_eq_ok.mp hchu

/-- What an allocation, of any address and size, returns: an error without a change, or a chunk, which is cut out
    of an unused chunk unless it wraps. -/
theorem allocate_cases (h : Inv A s) {o} (ho : ∀ a ∈ o, a < 2 ^ 32)
    (hlt : n < 2 ^ 32) {r} (heq : s.allocate o n = .ok (r, t)) :
    (∃ e, r = .error e ∧ t = s) ∨
      ∃ a, r = .ok a ∧ n ≤ a.size.get ∧ (a.base + a.size.get ≤ 2 ^ 32 → ∃ c, Taken s t c a) := by
  have hn : n ≤ 2 ^ 32 - pageSize := by
    by_contra hbig
    cases o with
    | none =>
      rw [allocate_none_panics hlt (by omega)] at heq
      cases heq
    | some a =>
      rw [allocate_some_panics (ho a rfl) hlt (by omega)] at heq
      cases heq
  have hpos : 0 < n := by
    refine Nat.pos_of_ne_zero ?_
    rintro rfl
    cases o with
    | none => cases heq
    | some a =>
      have had : ¬truncPage a % pageSize ≠ 0 := fun hne => hne (by
        rw [truncPage_eq (ho a rfl)]
        exact Nat.mod_eq_zero_of_dvd (pageSize_dvd_pageDown a))
      simp only [allocate, allocateAt, if_neg had] at heq
      cases heq
  cases o with
  | none =>
    rcases allocate_none_spec h hpos hn with ⟨heq', -⟩ | ⟨c, a, t', heq', hsz, ht⟩
    · rw [heq] at heq'
      cases heq'
      exact .inl ⟨_, rfl, rfl⟩
    · rw [heq] at heq'
      cases heq'
      exact .inr ⟨a, rfl, hsz ▸ le_pageUp n, fun _ => ⟨c, ht⟩⟩
  | some a =>
    have ha := ho a rfl
    cases r with
    | error e =>
      by_cases hex : ∃ c ∈ s.unusedChunks.chunks, c.Has (pageDown a) ∧ c.Has (wrap (pageDown a + (pageUp n - 1)))
      · obtain ⟨c, hc, hlo, hhi⟩ := hex
        exact absurd heq (allocate_some_ne_err h ha hn hc hlo hhi e)
      · obtain ⟨e', heq'⟩ := allocate_some_err h ha hpos hn fun c hc hbt => hex ⟨c, hc, hbt⟩
        rw [heq] at heq'
        cases heq'
        exact .inl ⟨_, rfl, rfl⟩
    | ok chunk =>
      obtain ⟨hbs, hsz⟩ := allocate_some_range ha hn heq
      refine .inr ⟨chunk, rfl, hsz ▸ le_pageUp n, fun hfit => ?_⟩
      rw [hbs, hsz] at hfit
      rcases allocate_some_spec h ha hpos hn hfit with ⟨⟨e, heq'⟩, -⟩ | ⟨c, chunk', t', heq', -, -, ht⟩
      · rw [heq] at heq'
        cases heq'
      · rw [heq] at heq'
        cases heq'
        exact ⟨c, ht⟩

/-- The calls, of any address and size, that keep to the arena: an allocation at an address whose size can be
    rounded and whose wrapped end, if it wraps, is not in the unused chunk that contains its beginning; a
    deallocation in the arena, or one that wraps. -/
def Confined (A : Arena) (s : VMAllocator) : VMCall → Prop
  | .allocate none _ => True
  | .allocate (some address) size =>
    size.toNat ≤ 2 ^ 32 - pageSize ∧ (2 ^ 32 < pageDown address.toNat + pageUp size.toNat →
        ∀ c ∈ s.unusedChunks.chunks, ¬(c.Has (pageDown address.toNat) ∧
          c.Has (wrap (pageDown address.toNat + (pageUp size.toNat - 1)))))
  | .deallocate address size =>
    2 ^ 32 < pageDown address.toNat + pageUp size.toNat ∨
      ((VMCall.deallocate address size).InArena A ∧ s.Safe (.deallocate address size))

/-- An allocation at an address, with a range that does not lie in the arena, is refused exactly when
    it is confined. -/
theorem allocate_outside (h : Inv A s) {address size} (hpos : 0 < size.toNat)
    (hout : ¬(VMCall.allocate (some address) size).InArena A) :
    (∃ e, s.call (.allocate (some address) size) = .ok (.allocated (.error e), s)) ↔
      s.Confined A (.allocate (some address) size) := by
  have ha := address.toNat_lt
  have hup := pageSize_le_pageUp hpos
  have hps : 0 < pageSize := by decide
  constructor
  · rintro ⟨e, he⟩
    have he : s.allocate (some address.toNat) size.toNat = .ok (.error e, s) := by
      simp only [call, Option.map_some, bind_eq_ok] at he
      obtain ⟨⟨r, t⟩, hrt, heq⟩ := he
      cases heq
      exact hrt
    have hn : size.toNat ≤ 2 ^ 32 - pageSize := by
      by_contra hbig
      rw [allocate_some_panics ha size.toNat_lt (by omega)] at he
      cases he
    exact ⟨hn, fun _ c hc hbt => allocate_some_ne_err h ha hn hc hbt.1 hbt.2 e he⟩
  · rintro ⟨hn, hwp⟩
    suffices hno : ∀ c ∈ s.unusedChunks.chunks, ¬(c.Has (pageDown address.toNat) ∧
        c.Has (wrap (pageDown address.toNat + (pageUp size.toNat - 1)))) by
      obtain ⟨e, he⟩ := allocate_some_err h ha hpos hn hno
      exact ⟨e, call_allocate he⟩
    by_cases hfit : 2 ^ 32 < pageDown address.toNat + pageUp size.toNat
    · exact hwp hfit
    · intro c hc hbt
      rw [wrap_of_lt (by omega)] at hbt
      have hcA := h.holds_unused hc
      refine hout ⟨hpos, fun a' ha' => ?_⟩
      cases ha'
      change A.base ≤ pageDown address.toNat ∧ pageDown address.toNat + pageUp size.toNat ≤ A.base + A.len
      unfold Arena.Holds at hcA
      unfold Chunk.Has at hbt
      omega

theorem call_confined (h : Inv A s) {c} (hpos : 0 < c.size)
    (hc : s.Confined A c) {r} (hcl : s.call c = .ok (r, t)) :
    Inv A t ∧ ∀ chunk, r = .allocated (.ok chunk) → A.Holds chunk := by
  have htn : ∀ {t : VMAllocator} {c chunk : Chunk}, Taken s t c chunk → Inv A t ∧ A.Holds chunk := fun ht =>
    have hcA := h.holds_unused ht.mem
    ⟨ht.inv h, Nat.le_trans hcA.1 ht.within.1, Nat.le_trans ht.within.2 hcA.2⟩
  match c with
  | .allocate none size =>
    by_cases hn : size.toNat ≤ 2 ^ 32 - pageSize
    · rcases allocate_none_spec h hpos hn with ⟨heq, -⟩ | ⟨c, chunk, t', heq, -, ht⟩
      · rw [call_allocate heq] at hcl
        cases hcl
        exact ⟨h, nofun⟩
      · rw [call_allocate heq] at hcl
        cases hcl
        refine ⟨(htn ht).1, fun chunk' heq' => ?_⟩
        cases heq'
        exact (htn ht).2
    · have hpn : s.allocate none size.toNat = .error .sizeNotPageMultiple := allocate_none_panics size.toNat_lt (by omega)
      simp [call, hpn] at hcl
  | .allocate (some address) size =>
    obtain ⟨hn, hwp⟩ := hc
    by_cases hfit : 2 ^ 32 < pageDown address.toNat + pageUp size.toNat
    · obtain ⟨e, heq⟩ := allocate_some_err h address.toNat_lt hpos hn (hwp hfit)
      rw [call_allocate heq] at hcl
      cases hcl
      exact ⟨h, nofun⟩
    · rcases allocate_some_spec h address.toNat_lt hpos hn (Nat.le_of_not_lt hfit) with
        ⟨⟨e, heq⟩, -⟩ | ⟨c, chunk, t', heq, -, -, ht⟩
      · rw [call_allocate heq] at hcl
        cases hcl
        exact ⟨h, nofun⟩
      · rw [call_allocate heq] at hcl
        cases hcl
        refine ⟨(htn ht).1, fun chunk' heq' => ?_⟩
        cases heq'
        exact (htn ht).2
  | .deallocate address size =>
    rcases hc with hwp | ⟨harn, hsf⟩
    · simp only [call, bind_eq_ok] at hcl
      obtain ⟨r', hr', -⟩ := hcl
      exact absurd hr' (deallocate_panics h address.toNat_lt size.toNat_lt hwp r')
    · obtain ⟨hlo, hhi⟩ := harn.2 address.toNat rfl
      obtain ⟨chunk, t', heq, -, -, -, -, hinv⟩ := deallocate_spec h address.toNat_lt hpos hlo hhi hsf
      rw [call_deallocate heq] at hcl
      cases hcl
      exact ⟨hinv, nofun⟩

/-- In every run of confined calls, a confined allocation outside the arena is refused and changes nothing,
    no address outside the arena is unused, and every chunk that is handed out lies in the arena. -/
theorem confined_of_runs (A : Arena) (s₀ s : VMAllocator) (hnew : new A.base A.len = .ok s₀)
    (hrun : Runs call (fun s c => 0 < c.size ∧ s.Confined A c) s₀ s) :
    (∀ address size, 0 < size.toNat → ¬(VMCall.allocate (some address) size).InArena A →
      ((∃ e, s.call (.allocate (some address) size) = .ok (.allocated (.error e), s)) ↔
        s.Confined A (.allocate (some address) size))) ∧
      (∀ x, s.unusedChunks.chunks.Has x → A.Has x) ∧
        ∀ c chunk t, 0 < c.size → s.Confined A c → s.call c = .ok (.allocated (.ok chunk), t) → A.Holds chunk := by
  have hinv : Inv A s := hrun.invariant (inv_new hnew) fun s t c r hs hg hcall => (call_confined hs hg.1 hg.2 hcall).1
  refine ⟨fun address size hpos hout => allocate_outside hinv hpos hout, fun x hx => (hinv.cover x).mp (.inr hx), ?_⟩
  intro c chunk t hpos hc hcall
  exact (call_confined hinv hpos hc hcall).2 chunk rfl

theorem confined_of_runs_twoPages :
    ∃ s₀ s r, new 0x1000 0x2000 = .ok s₀ ∧ s₀.call (.deallocate 0x2000 0x1000) = .ok (r, s) ∧
      ∀ x, s.unusedChunks.chunks.Has x → twoPages.Has x := by
  refine ⟨_, _, _, rfl, rfl, (confined_of_runs twoPages _ _ rfl
    (.step (a := .deallocate 0x2000 0x1000) .start ⟨by decide, .inr ⟨by decide, ?_⟩⟩ rfl)).2.1⟩
  rintro c (hc | hc) htop
  · exact absurd hc (ChunkMap.not_mem_empty c)
  · have hinv : Inv twoPages _ := inv_new rfl
    have hle : c.hi ≤ 0x1000 + 0x2000 := (hinv.holds_unused hc).2
    rw [htop] at hle
    exact absurd hle (by decide)

/-- With the arena of the guest memory: an allocation over the end of the 32-bit space succeeds, and a page of
    the main thread's stack is handed out after a deallocation there. -/
theorem confined_fails : (∃ s₀ chunk t, new 0 0xFFF00000 = .ok s₀ ∧
        s₀.call (.allocate (some 0xFFE00000) 0xFFFFF000) = .ok (.allocated (.ok chunk), t) ∧
        chunk.base = 0xFFE00000 ∧ chunk.hi = 0x1FFDFF000) ∧
      ∃ s₀ r s₁ chunk t, new 0 0xFFF00000 = .ok s₀ ∧ s₀.call (.deallocate 0xFFF00000 0x1000) = .ok (r, s₁) ∧
        s₁.call (.allocate (some 0xFFF00000) 0x1000) = .ok (.allocated (.ok chunk), t) ∧ chunk.base = 0xFFF00000 :=
  ⟨⟨_, _, _, rfl, rfl, rfl, rfl⟩, _, _, _, _, _, rfl, rfl, rfl, rfl⟩

end VMAllocator
end TouchHLE.Mem
