import TouchHLE.Theorems.Dyld.Words

/-! Linking a binary: its stubs call the lazy linker afterwards, and each of its slots has a pointer that invokes the
    implementation of its symbol, plus the offset that a relocation found there. -/

namespace TouchHLE.Dyld
open Lib List Function Image
open Mem (wrap)
open Environment (readLe)
variable {F C : Type} {symbol : Symbol} {e : Symbol × F} {a : Nat} {impl : Impl F}

theorem searchLists_fst {T : Type} {lists} {e : Symbol × T}
    (h : searchLists lists symbol = some e) : e.1 = symbol := by
  have hfd := find?_some h
  exact eq_of_beq hfd

section
variable {P : Image F C} (h : P.hostFunction symbol = some e)
include h

theorem Image.hostFunction_fst : e.1 = symbol := by
  obtain ⟨dylib, _, hdyl⟩ := exists_of_findSome?_eq_some h
  exact searchLists_fst hdyl

omit h in
theorem Layout.exported_lt {P : Image F C} {m} (layout : Layout P m)
    (h : P.exported symbol = some a) : a < 2 ^ 32 := by
  obtain ⟨bin, hbin, hlp⟩ := exists_of_findSome?_eq_some h
  obtain ⟨before, after, hsp, _⟩ := lookup_eq_some_iff.mp hlp
  exact layout.exported bin hbin (symbol, a) (by rw [hsp]; simp)

theorem Image.implementation_host : P.implementation symbol = some (.host e.2) := by
  simp [implementation, h]

theorem Image.implementation_of_host (hip : P.implementation symbol = some impl) : impl = .host e.2 := by
  rw [implementation_host h] at hip
  exact (Option.some.inj hip).symm

end

theorem Image.implementation_of_exported {P : Image F C}
    (hho : P.hostFunction symbol = none) (h : P.exported symbol = some a) (hip : P.implementation symbol = some impl) :
    impl = .guest a := by
  simp only [implementation, hho, h, Option.map_some, Option.some.injEq] at hip
  exact hip.symm

theorem Image.implementation_none {P : Image F C} (hho : P.hostFunction symbol = none)
    (h : P.exported symbol = none) : P.implementation symbol = none := by
  simp [implementation, hho, h]

namespace Linker
variable {P : Image F C} {m : Nat → UInt8} {s t : Linker F C} {i k : Nat}
variable {W : Spot → Prop} {p offset : Nat} {symbol : Symbol} {f : F} {e : Symbol × F} {impl : Impl F}
variable {r : Nat × Symbol} {s₀ : Linker F C} {todo : List (Nat × Symbol)} {bin : MachO}

/-- What holds of the tables: the numbers are dispatched, the cache has trampolines, and the words that say where the
    lazy pointers are have never been written. -/
structure Core (P : Image F C) (m : Nat → UInt8) (s : Linker F C) : Prop where
  room : s.linkedHostFunctions.length + svcLinkedFunctionsBase ≤ svcLazyLinkRetFlag
  svcs : ∀ e ∈ s.svcs, Dispatches s e.1 e.2
  cache : ∀ symbol p, s.nonLazyHostFunctions symbol = some p → ∃ e, P.hostFunction symbol = some e ∧ Trampoline P s p e.2
  data : ∀ i k, .data i k ∈ P.spots →
    s.read (P.address m (.spot (.data i k))) = readLe m (P.address m (.spot (.data i k))) 4

theorem core_new (P : Image F C) (m : Nat → UInt8) : Core P m (new m) where
  room := by
    simp only [new, length_nil]
    decide
  svcs := by simp [new]
  cache := by simp [new]
  data _ _ _ := rfl

theorem Core.grows (core : Core P m s) (grows : Grows P m W s t) (hW : ∀ i k, ¬W (.data i k))
    (room : t.linkedHostFunctions.length + svcLinkedFunctionsBase ≤ svcLazyLinkRetFlag)
    (svcs : ∀ e ∈ t.svcs, e ∈ s.svcs ∨ Dispatches t e.1 e.2)
    (cache : t.nonLazyHostFunctions = s.nonLazyHostFunctions) : Core P m t where
  room := room
  svcs e he := by
    rcases svcs e he with hold | hnew
    · exact (core.svcs e hold).functions grows.functions
    · exact hnew
  cache symbol p hp := by
    rw [cache] at hp
    obtain ⟨e, he, htp⟩ := core.cache symbol p hp
    exact ⟨e, he, htp.grows grows⟩
  data i k hx := (grows.spots _ hx (hW i k)).trans (core.data i k hx)

theorem Core.wrote (core : Core P m s) (wrote : Wrote P m (onSpots W) s t)
    (hW : ∀ i k, ¬W (.data i k)) : Core P m t := by
  refine core.grows wrote.grows hW ?_ ?_ ?_
  · rw [wrote.only]
    exact core.room
  · intro e he
    rw [wrote.only] at he
    exact .inl he
  · rw [wrote.only]

def Room (s : Linker F C) : Prop := s.linkedHostFunctions.length + svcLinkedFunctionsBase < svcLazyLinkRetFlag

theorem Room.nextIdx (room : Room s) : s.nextIdx = .ok s.linkedHostFunctions.length := by
  have hlt : s.linkedHostFunctions.length < 2 ^ 32 := by
    simp only [Room, svcLazyLinkRetFlag] at room
    omega
  simp only [Linker.nextIdx, if_pos hlt]

theorem Room.wrap_svc (room : Room s) :
    wrap (s.linkedHostFunctions.length + svcLinkedFunctionsBase) = s.linkedHostFunctions.length + svcLinkedFunctionsBase := by
  simp only [Room, svcLazyLinkRetFlag] at room
  unfold wrap
  omega

structure Created (P : Image F C) (m : Nat → UInt8) (s t : Linker F C) (f : F) (p : Nat) : Prop where
  grows : ∀ W, Grows P m W s t
  core : Core P m s → Core P m t
  trampoline : Trampoline P t p f
  length : t.linkedHostFunctions.length = s.linkedHostFunctions.length + 1
  cache : t.nonLazyHostFunctions = s.nonLazyHostFunctions
  constants : t.constantsToLinkLater = s.constantsToLinkLater
  linkedBins : t.linkedBins = s.linkedBins

theorem createGuestFunction_of_room (layout : Layout P m) (room : Room s) (symbol : Symbol) (f : F)
    (hp : P.heap[s.allocated]? = some p) :
    ∃ t, s.createGuestFunction P symbol f = .ok (p, t) ∧ Created P m s t f p := by
  set svc := s.linkedHostFunctions.length + svcLinkedFunctionsBase with hsvc
  have hrm : svc < svcLazyLinkRetFlag := room
  have hlt : svc < 2 ^ 24 := Nat.lt_trans hrm (by decide)
  have hwp : wrap svc = svc := room.wrap_svc
  set s₁ : Linker F C := { s with
    linkedHostFunctions := s.linkedHostFunctions ++ [(symbol, f)]
    allocated := s.allocated + 1
    svcs := s.svcs ++ [(svc, f)] } with hs₁
  have heq : s.createGuestFunction P symbol f = .ok (p, (s₁.write p (0xef000000 + svc)).write (p + 4) encodeA32Ret) := by
    simp only [createGuestFunction, room.nextIdx, ok_bind, ← hsvc, hwp, hp, encodeA32Svc_of_lt hlt]
    rfl
  refine ⟨_, heq, ?_⟩
  have had : ∀ w, P.address m (.heap s.allocated w) = p + 4 * w := address_heap hp
  -- Both words are those of a trampoline that has not been there before.
  have hwr : Wrote P m (fun x => ∃ w, x = .heap s.allocated w) s₁
      ((s₁.write p (0xef000000 + svc)).write (p + 4) encodeA32Ret) := by
    have h₀ := Wrote.write (W := fun x => ∃ w, x = .heap s.allocated w) layout (mem_heap hp Nat.two_pos) ⟨0, rfl⟩ s₁
      (0xef000000 + svc)
    have h₁ := Wrote.write (W := fun x => ∃ w, x = .heap s.allocated w) layout (mem_heap hp Nat.one_lt_two) ⟨1, rfl⟩
      (s₁.write p (0xef000000 + svc)) encodeA32Ret
    rw [had] at h₀ h₁
    exact h₀.trans h₁
  have hdsp : Dispatches ((s₁.write p (0xef000000 + svc)).write (p + 4) encodeA32Ret) svc f :=
    dispatches_append room rfl (.inl rfl)
  have hgr : ∀ W, Grows P m W s ((s₁.write p (0xef000000 + svc)).write (p + 4) encodeA32Ret) := fun W =>
    { functions := prefix_append _ _
      allocated := Nat.le_succ _
      spots := fun x hx _ => hwr.same _ (mem_places hx) (by rintro ⟨w, hw⟩; cases hw)
      heap := fun n w hx hn => hwr.same _ hx (by
        rintro ⟨w', hw'⟩
        cases hw'
        exact Nat.lt_irrefl _ hn) }
  refine ⟨hgr, fun core => ?_, ⟨⟨s.allocated, Nat.lt_succ_self _, hp⟩, ⟨svc, ?_, hdsp⟩, ?_⟩, ?_, rfl, rfl, rfl⟩
  · refine core.grows (hgr fun _ => False) (fun _ _ => id) ?_ ?_ rfl
    · simp only [write, hs₁, length_append, length_singleton]
      omega
    · intro e he
      rcases mem_append.mp he with hold | hnew
      · exact .inl hold
      · cases mem_singleton.mp hnew
        exact .inr hdsp
  · rw [read_write_of_apart (by omega), read_write_self (by omega)]
  · exact read_write_self (by decide)
  · exact length_append

theorem created_of_eq_ok (layout : Layout P m) (room : Room s)
    (h : s.createGuestFunction P symbol f = .ok (p, t)) : Created P m s t f p := by
  cases hp : P.heap[s.allocated]? with
  | none => simp [createGuestFunction, room.nextIdx, hp] at h
  | some q =>
    obtain ⟨t', heq, hce⟩ := createGuestFunction_of_room layout room symbol f hp
    rw [heq] at h
    cases h
    exact hce

structure Steady (P : Image F C) (m : Nat → UInt8) (s t : Linker F C) : Prop where
  grows : ∀ W, Grows P m W s t
  core : Core P m t
  length : t.linkedHostFunctions.length ≤ s.linkedHostFunctions.length + 1
  constants : t.constantsToLinkLater = s.constantsToLinkLater
  linkedBins : t.linkedBins = s.linkedBins

theorem Core.steady (core : Core P m s) : Steady P m s s := ⟨fun _ => .refl s, core, Nat.le_succ _, rfl, rfl⟩

theorem Created.cached (created : Created P m s t f p)
    (core : Core P m s) (he : P.hostFunction symbol = some e) (hf : e.2 = f) :
    Steady P m s { t with nonLazyHostFunctions := update t.nonLazyHostFunctions symbol (some p) } := by
  have hcr := created.core core
  have hgr : ∀ W, Grows P m W t { t with nonLazyHostFunctions := update t.nonLazyHostFunctions symbol (some p) } :=
    fun W => .of_eq rfl rfl rfl
  refine ⟨fun W => (created.grows W).trans (hgr W), ⟨hcr.room, hcr.svcs, ?_, hcr.data⟩, created.length.le,
    created.constants, created.linkedBins⟩
  intro symbol' p' hp'
  rcases eq_or_ne symbol' symbol with rfl | hne
  · cases (update_self ..).symm.trans hp'
    subst hf
    exact ⟨e, he, created.trampoline.grows (hgr fun _ => False)⟩
  · obtain ⟨e', he', htp⟩ := hcr.cache symbol' p' ((update_of_ne hne ..).symm.trans hp')
    exact ⟨e', he', htp.grows (hgr fun _ => False)⟩

theorem createProcAddress_eq_ok (layout : Layout P m) (core : Core P m s) (room : Room s)
    (he : P.hostFunction symbol = some e) {r} (h : s.createProcAddress P symbol = .ok (r, t)) :
    Steady P m s t ∧ ∃ p, r = some p ∧ Trampoline P t p e.2 := by
  have hsy : e.1 = symbol := hostFunction_fst he
  subst hsy
  simp only [createProcAddress, he] at h
  cases hcch : s.nonLazyHostFunctions e.1 with
  | some p =>
    simp only [hcch] at h
    cases h
    obtain ⟨e', he', htp⟩ := core.cache e.1 p hcch
    rw [he] at he'
    cases he'
    exact ⟨core.steady, p, rfl, htp⟩
  | none =>
    simp only [hcch] at h
    obtain ⟨⟨p, u⟩, hct, h⟩ := bind_eq_ok.mp h
    cases h
    have hce := created_of_eq_ok layout room hct
    exact ⟨hce.cached core he rfl, p, rfl, hce.trampoline.allocated, hce.trampoline.svc, hce.trampoline.ret⟩

theorem createProcAddress_of_room (layout : Layout P m) (room : Room s)
    (he : P.hostFunction symbol = some e) (hhea : s.allocated < P.heap.length) :
    ∃ r t, s.createProcAddress P symbol = .ok (r, t) := by
  cases hcch : s.nonLazyHostFunctions e.1 with
  | some p => exact ⟨some p, s, by simp [createProcAddress, he, hcch]⟩
  | none =>
    obtain ⟨t, heq, _⟩ := createGuestFunction_of_room layout room e.1 e.2 (List.getElem?_eq_some_iff.mpr ⟨hhea, rfl⟩)
    exact ⟨_, _, by simp only [createProcAddress, he, hcch, heq, ok_bind]; rfl⟩

theorem Good.lt (layout : Layout P m) (h : Good P s p impl)
    (hip : P.implementation symbol = some impl) : p < 2 ^ 32 := by
  cases impl with
  | host f =>
    obtain ⟨n, _, hp⟩ := Trampoline.allocated h
    have hbn := layout.bounded _ (mem_heap hp Nat.two_pos)
    rw [address_heap hp] at hbn
    omega
  | guest addr =>
    cases hho : P.hostFunction symbol with
    | some e => cases implementation_of_host hho hip
    | none =>
      cases hexp : P.exported symbol with
      | none =>
        rw [implementation_none hho hexp] at hip
        cases hip
      | some a =>
        cases implementation_of_exported hho hexp hip
        cases h
        exact layout.exported_lt hexp

/-- The slot has a pointer that invokes the implementation of the symbol, plus an offset. -/
def Bound (P : Image F C) (s : Linker F C) (a offset : Nat) (symbol : Symbol) : Prop :=
  ∀ impl, P.implementation symbol = some impl → ∃ p, Good P s p impl ∧ s.read a = wrap (p + offset)

theorem Bound.grows (h : Bound P s r.1 offset r.2)
    (grows : Grows P m W s t) (hr : r ∈ P.slots i) (hW : ¬W (.slot i r.1)) : Bound P t r.1 offset r.2 := by
  intro impl hip
  obtain ⟨p, hgd, hrd⟩ := h impl hip
  exact ⟨p, hgd.grows grows, (grows.spots _ (mem_slot hr) hW).trans hrd⟩

theorem bound_of_none {a : Nat} (h : P.implementation symbol = none) : Bound P s a offset symbol := by
  intro impl hip
  rw [h] at hip
  cases hip

structure Linked (P : Image F C) (m : Nat → UInt8) (i : Nat) (r : Nat × Symbol) (s t : Linker F C) : Prop where
  core : Core P m t
  grows : Grows P m (· = .slot i r.1) s t
  length : t.linkedHostFunctions.length ≤ s.linkedHostFunctions.length + 1
  constants : ∀ e ∈ t.constantsToLinkLater, e ∈ s.constantsToLinkLater ∨ e.1 = r.1 ∧ P.implementation r.2 = none
  linkedBins : t.linkedBins = s.linkedBins

theorem Steady.linked (steady : Steady P m s t) (i : Nat) (r : Nat × Symbol) : Linked P m i r s t where
  core := steady.core
  grows := steady.grows _
  length := steady.length
  constants _ he := .inl (steady.constants ▸ he)
  linkedBins := steady.linkedBins

theorem wrote_slot (layout : Layout P m) (hr : r ∈ P.slots i) (s : Linker F C) (v : Nat) :
    Wrote P m (onSpots (· = .slot i r.1)) s (s.write r.1 v) :=
  .spot (W := (· = .slot i r.1)) layout (mem_slot hr) rfl s v

theorem Steady.write (steady : Steady P m s t) (layout : Layout P m) (hr : r ∈ P.slots i) (v : Nat) :
    Linked P m i r s (t.write r.1 v) := by
  have hwr := wrote_slot layout hr t v
  refine ⟨steady.core.wrote hwr (fun _ _ => Spot.noConfusion), (steady.grows _).trans hwr.grows, steady.length, ?_,
    steady.linkedBins⟩
  exact fun e he => .inl (steady.constants ▸ he)

theorem bound_of_write (layout : Layout P m) (hr : r ∈ P.slots i)
    (hgd : Good P t p impl) (hip : P.implementation r.2 = some impl) :
    Bound P (t.write r.1 (wrap (p + offset))) r.1 offset r.2 := by
  have hwr := wrote_slot layout hr t (wrap (p + offset))
  intro impl' hip'
  rw [hip] at hip'
  cases hip'
  exact ⟨p, hgd.grows hwr.grows, read_write_self (Nat.mod_lt _ (by decide))⟩

section
variable (layout : Layout P m) (core : Core P m s) (room : Room s)
include layout core room

theorem relocationTarget_eq_ok {name} {target}
    (h : s.relocationTarget P name = .ok (target, t)) :
    Steady P m s t ∧ (¬IsObjc name → ¬P.Doubled name → ∀ impl, P.implementation name = some impl →
      ∃ p, target = some p ∧ Good P t p impl) := by
  unfold relocationTarget at h
  split at h
  · cases h
    exact ⟨core.steady, fun hnot => absurd (.inl ‹_›) hnot⟩
  split at h
  · cases h
    exact ⟨core.steady, fun hnot => absurd (.inr (.inl ‹_›)) hnot⟩
  split at h
  · cases h
    exact ⟨core.steady, fun hnot => absurd (.inr (.inr ‹_›)) hnot⟩
  cases hexp : P.exported name with
  | some a =>
    simp only [hexp] at h
    cases h
    refine ⟨core.steady, fun _ hdbl impl hip => ?_⟩
    cases hho : P.hostFunction name with
    | some e => exact absurd ⟨by rw [hho]; rfl, by rw [hexp]; rfl⟩ hdbl
    | none => exact ⟨a, rfl, by rw [implementation_of_exported hho hexp hip]; rfl⟩
  | none =>
    simp only [hexp] at h
    cases hho : P.hostFunction name with
    | none =>
      simp only [hho] at h
      cases h
      refine ⟨core.steady, fun _ _ impl hip => ?_⟩
      rw [implementation_none hho hexp] at hip
      cases hip
    | some e =>
      simp only [hho] at h
      obtain ⟨⟨r, u⟩, hct, h⟩ := bind_eq_ok.mp h
      rw [hostFunction_fst hho] at hct
      obtain ⟨hstd, p, hr, htp⟩ := createProcAddress_eq_ok layout core room hho hct
      subst hr
      cases h
      refine ⟨hstd, fun _ _ impl hip => ⟨p, rfl, ?_⟩⟩
      rw [implementation_of_host hho hip]
      exact htp

theorem relocate_eq_ok (hr : r ∈ P.slots i) (h : s.relocate P r = .ok t) :
    Linked P m i r s t ∧ (¬IsObjc r.2 → ¬P.Doubled r.2 → Bound P t r.1 (s.read r.1) r.2) := by
  obtain ⟨⟨target, u⟩, htg, h⟩ := bind_eq_ok.mp h
  obtain ⟨hstd, hgd⟩ := relocationTarget_eq_ok layout core room htg
  cases target with
  | none =>
    cases h
    refine ⟨hstd.linked i r, fun hoj hdbl impl hip => ?_⟩
    obtain ⟨p, hp, _⟩ := hgd hoj hdbl impl hip
    cases hp
  | some address =>
    cases h
    refine ⟨hstd.write layout hr _, fun hoj hdbl impl hip => ?_⟩
    obtain ⟨p, hp, hgd⟩ := hgd hoj hdbl impl hip
    cases hp
    exact bound_of_write layout hr hgd hip impl hip

theorem linkPointer_eq_ok (hr : r ∈ P.slots i)
    (hdbl : ¬P.Doubled r.2) (h : s.linkPointer P r = .ok t) : Linked P m i r s t ∧ Bound P t r.1 0 r.2 := by
  have hwp : ∀ {p : Nat} {impl : Impl F} {u : Linker F C}, P.implementation r.2 = some impl → Good P u p impl →
      Bound P (u.write r.1 p) r.1 0 r.2 := by
    intro p impl u hip hgd
    have hbn : Bound P (u.write r.1 (wrap (p + 0))) r.1 0 r.2 := bound_of_write layout hr hgd hip
    rwa [Nat.add_zero, show wrap p = p from Nat.mod_eq_of_lt (hgd.lt layout hip)] at hbn
  unfold linkPointer at h
  cases hexp : P.exported r.2 with
  | some a =>
    simp only [hexp] at h
    cases h
    refine ⟨core.steady.write layout hr a, ?_⟩
    cases hho : P.hostFunction r.2 with
    | some e => exact absurd ⟨by rw [hho]; rfl, by rw [hexp]; rfl⟩ hdbl
    | none =>
      have hip : P.implementation r.2 = some (.guest a) := by simp [implementation, hho, hexp]
      exact hwp hip rfl
  | none =>
    simp only [hexp] at h
    cases hho : P.hostFunction r.2 with
    | some e =>
      simp only [hho] at h
      obtain ⟨⟨target, u⟩, hct, h⟩ := bind_eq_ok.mp h
      rw [hostFunction_fst hho] at hct
      obtain ⟨hstd, p, hp, htp⟩ := createProcAddress_eq_ok layout core room hho hct
      subst hp
      cases h
      exact ⟨hstd.write layout hr p, hwp (implementation_host hho) htp⟩
    | none =>
      -- A constant is linked later, and has no implementation.
      have hno := implementation_none hho hexp
      have hlr : ∀ template, Linked P m i r s
          { s with constantsToLinkLater := s.constantsToLinkLater ++ [(r.1, template)] } := fun template =>
        { core := core.grows (.of_eq (W := fun _ => False) rfl rfl rfl) (fun _ _ => id) core.room (fun _ he => .inl he) rfl
          grows := .of_eq rfl rfl rfl
          length := Nat.le_succ _
          constants := fun e he => by
            rcases mem_append.mp he with hold | hnew
            · exact .inl hold
            · cases mem_singleton.mp hnew
              exact .inr ⟨rfl, hno⟩
          linkedBins := rfl }
      simp only [hho] at h
      cases hcos : P.hostConstant r.2 with
      | some e =>
        simp only [hcos] at h
        cases h
        exact ⟨hlr e.2, bound_of_none hno⟩
      | none =>
        simp only [hcos] at h
        cases h
        exact ⟨hlr P.placeholder, bound_of_none hno⟩

end

/-! ### All slots of a binary -/

theorem mem_slots_of_relocations (h : r ∈ P.relocations i) : r ∈ P.slots i := by
  rw [slots_eq]
  exact mem_append_left _ h

theorem mem_slots_of_pointers (h : r ∈ P.pointers i) : r ∈ P.slots i := by
  rw [slots_eq]
  exact mem_append_right _ h

def atSlots (i : Nat) (x : Spot) : Prop := ∃ a, x = .slot i a

/-- The other references stay as they are linked. Those that share the slot have the same symbol. -/
theorem Linked.keeps (layout : Layout P m) {r'} (linked : Linked P m i r s t) (hr : r ∈ P.slots i)
    (hr' : r' ∈ P.slots i) (h : Bound P s r'.1 offset r'.2)
    (hsm : r'.1 = r.1 → Bound P t r.1 offset r.2) : Bound P t r'.1 offset r'.2 := by
  by_cases heq : r'.1 = r.1
  · rw [heq, layout.symbols i (lt_of_slot hr) r' hr' r hr heq]
    exact hsm heq
  · exact h.grows linked.grows hr' fun hslt => heq (Spot.slot.inj hslt).2

structure Linking (P : Image F C) (m : Nat → UInt8) (i : Nat) (s₀ : Linker F C) (n : Nat) (s : Linker F C) : Prop where
  core : Core P m s
  grows : Grows P m (atSlots i) s₀ s
  length : s.linkedHostFunctions.length + n ≤ s₀.linkedHostFunctions.length + (P.slots i).length
  constants : ∀ e ∈ s.constantsToLinkLater, e ∈ s₀.constantsToLinkLater ∨
    ∃ r ∈ P.slots i, e.1 = r.1 ∧ P.implementation r.2 = none
  linkedBins : s.linkedBins = s₀.linkedBins

theorem Linking.room (h : Linking P m i s₀ (k + 1) s)
    (enough : s₀.linkedHostFunctions.length + (P.slots i).length + svcLinkedFunctionsBase ≤ svcLazyLinkRetFlag) :
    Room s := by
  have hln := h.length
  unfold Room
  omega

theorem Linking.next (h : Linking P m i s₀ (k + 1) s) (hr : r ∈ P.slots i) (linked : Linked P m i r s t) :
    Linking P m i s₀ k t := by
  refine ⟨linked.core, h.grows.trans (linked.grows.mono fun x hx => ⟨r.1, hx⟩), ?_, fun e he => ?_,
    linked.linkedBins.trans h.linkedBins⟩
  · have hln := h.length
    have hlnk := linked.length
    omega
  · rcases linked.constants e he with hold | ⟨had, hno⟩
    · exact h.constants e hold
    · exact .inr ⟨r, hr, had, hno⟩

structure Relocating (P : Image F C) (m : Nat → UInt8) (i : Nat) (s₀ : Linker F C) (todo : List (Nat × Symbol))
    (s : Linker F C) : Prop extends Linking P m i s₀ ((P.pointers i).length + todo.length) s where
  sub : ∀ r ∈ todo, r ∈ P.relocations i
  nodup : (todo.map Prod.fst).Nodup
  ready : ∀ r ∈ todo, s.read r.1 = readLe m r.1 4
  bound : ∀ r ∈ P.relocations i, r ∉ todo → ¬IsObjc r.2 → Bound P s r.1 (readLe m r.1 4) r.2

theorem Relocating.round (layout : Layout P m) (careful : ∀ r ∈ P.relocations i, IsObjc r.2 ∨ ¬P.Doubled r.2)
    (enough : s₀.linkedHostFunctions.length + (P.slots i).length + svcLinkedFunctionsBase ≤ svcLazyLinkRetFlag)
    (h : Relocating P m i s₀ (r :: todo) s) (hst : s.relocate P r = .ok t) : Relocating P m i s₀ todo t := by
  have hmem : ∀ r ∈ P.relocations i, r ∈ P.slots i := fun _ => mem_slots_of_relocations
  have hr := h.sub r mem_cons_self
  obtain ⟨hlnk, hbn⟩ := relocate_eq_ok layout h.core (h.room enough) (hmem r hr) hst
  rw [h.ready r mem_cons_self] at hbn
  have hnd := nodup_cons.mp h.nodup
  have hnew : ¬IsObjc r.2 → Bound P t r.1 (readLe m r.1 4) r.2 := fun hoj => by
    rcases careful r hr with hyes | hdbl
    · exact absurd hyes hoj
    · exact hbn hoj hdbl
  refine ⟨h.next (hmem r hr) hlnk, fun r' hr' => h.sub r' (mem_cons_of_mem _ hr'), hnd.2, fun r' hr' => ?_,
    fun r' hr' hnot hoj => ?_⟩
  · have hne : r'.1 ≠ r.1 := fun heq => hnd.1 (heq ▸ mem_map_of_mem hr')
    have hslt := hmem r' (h.sub r' (mem_cons_of_mem _ hr'))
    have hrd := hlnk.grows.spots _ (mem_slot hslt) fun heq => hne (Spot.slot.inj heq).2
    exact hrd.trans (h.ready r' (mem_cons_of_mem _ hr'))
  · rcases eq_or_ne r' r with rfl | hne
    · exact hnew hoj
    · have hold := h.bound r' hr' (fun hin => (mem_cons.mp hin).elim hne hnot) hoj
      refine hlnk.keeps layout (hmem r hr) (hmem r' hr') hold fun heq => ?_
      have hsy := layout.symbols i (lt_of_slot (hmem r hr)) r' (hmem r' hr') r (hmem r hr) heq
      rw [heq]
      exact hnew (hsy ▸ hoj)

structure Pointing (P : Image F C) (m : Nat → UInt8) (i : Nat) (s₀ : Linker F C) (todo : List (Nat × Symbol))
    (s : Linker F C) : Prop extends Linking P m i s₀ todo.length s where
  sub : ∀ r ∈ todo, r ∈ P.pointers i
  relocations : ∀ r ∈ P.relocations i, ¬IsObjc r.2 → Bound P s r.1 (readLe m r.1 4) r.2
  bound : ∀ r ∈ P.pointers i, r ∉ todo → Bound P s r.1 0 r.2

theorem Pointing.round (layout : Layout P m) (careful : ∀ r ∈ P.pointers i, ¬P.Doubled r.2)
    (enough : s₀.linkedHostFunctions.length + (P.slots i).length + svcLinkedFunctionsBase ≤ svcLazyLinkRetFlag)
    (h : Pointing P m i s₀ (r :: todo) s) (hst : s.linkPointer P r = .ok t) : Pointing P m i s₀ todo t := by
  have hmem : ∀ r ∈ P.pointers i, r ∈ P.slots i := fun _ => mem_slots_of_pointers
  have hr := h.sub r mem_cons_self
  obtain ⟨hlnk, hbn⟩ := linkPointer_eq_ok layout h.core (h.room enough) (hmem r hr) (careful r hr) hst
  refine ⟨h.next (hmem r hr) hlnk, fun r' hr' => h.sub r' (mem_cons_of_mem _ hr'), fun r' hr' hoj => ?_,
    fun r' hr' hnot => ?_⟩
  · -- A relocation in the same slot has no offset.
    have hslt := mem_slots_of_relocations hr'
    refine hlnk.keeps layout (hmem r hr) hslt (h.relocations r' hr' hoj) fun heq => ?_
    rw [layout.shared i (lt_of_slot hslt) r' hr' r hr heq]
    exact hbn
  · rcases eq_or_ne r' r with rfl | hne
    · exact hbn
    · have hold := h.bound r' hr' fun hin => (mem_cons.mp hin).elim hne hnot
      exact hlnk.keeps layout (hmem r hr) (hmem r' hr') hold fun _ => hbn

theorem foldlM_linkPointerAt {ptrs} {info} (ks : List Nat)
    (h : ks.foldlM (linkPointerAt P ptrs info) s = .ok t) :
    (ks.filterMap fun k => info.indirectUndefSymbols[k]?.join.map (ptrs.addr + k * info.entrySize, ·)).foldlM
      (linkPointer P) s = .ok t := by
  induction ks generalizing s with
  | nil => exact h
  | cons k ks ih =>
    obtain ⟨s₁, hs₁, h⟩ := bind_eq_ok.mp h
    unfold linkPointerAt at hs₁
    cases hsy : info.indirectUndefSymbols[k]? with
    | none =>
      simp only [hsy] at hs₁
      cases hs₁
    | some symbol =>
      simp only [hsy] at hs₁
      cases symbol with
      | none =>
        cases hs₁
        rw [filterMap_cons_none (by simp [hsy])]
        exact ih h
      | some symbol =>
        rw [filterMap_cons_some (b := (ptrs.addr + k * info.entrySize, symbol)) (by simp [hsy]), foldlM_cons,
          show s.linkPointer P (ptrs.addr + k * info.entrySize, symbol) = .ok s₁ from hs₁]
        exact ih h

theorem doNonLazyLinking_eq_ok (h : s.doNonLazyLinking P bin = .ok t) :
    ∃ u, bin.externalRelocations.foldlM (relocate P) s = .ok u ∧ bin.pointers.foldlM (linkPointer P) u = .ok t := by
  obtain ⟨u, hu, h⟩ := bind_eq_ok.mp h
  refine ⟨u, hu, ?_⟩
  unfold MachO.pointers
  cases hptr : bin.nonLazySymbolPointers with
  | none =>
    simp only [hptr] at h
    exact h
  | some ptrs =>
    simp only [hptr] at h ⊢
    cases hio : ptrs.dyldIndirectSymbolInfo with
    | none =>
      simp only [hio] at h
      cases h
    | some info =>
      simp only [hio] at h ⊢
      split at h
      · cases h
      · exact foldlM_linkPointerAt _ h

theorem doNonLazyLinking_links (layout : Layout P m) (hbin : P.bins[i]? = some bin) (core : Core P m s)
    (ready : ∀ r ∈ P.slots i, s.read r.1 = readLe m r.1 4)
    (careful : ∀ r ∈ P.relocations i, IsObjc r.2 ∨ ¬P.Doubled r.2) (careful' : ∀ r ∈ P.pointers i, ¬P.Doubled r.2)
    (enough : s.linkedHostFunctions.length + (P.slots i).length + svcLinkedFunctionsBase ≤ svcLazyLinkRetFlag)
    (h : s.doNonLazyLinking P bin = .ok t) : Pointing P m i s [] t := by
  have hlt := (List.getElem?_eq_some_iff.mp hbin).1
  have hrlc : P.relocations i = bin.externalRelocations := by rw [relocations, hbin]; rfl
  have hpoi : P.pointers i = bin.pointers := by rw [pointers, hbin]; rfl
  have hslo := slots_eq P i
  obtain ⟨u, hu, h⟩ := doNonLazyLinking_eq_ok h
  have hsr : Relocating P m i s bin.externalRelocations s := by
    refine ⟨⟨core, .refl s, ?_, fun e he => .inl he, rfl⟩, fun r hr => hrlc ▸ hr,
      hrlc ▸ layout.relocations i hlt, fun r hr => ?_, fun r hr hnot => absurd (hrlc ▸ hr) hnot⟩
    · rw [hslo, length_append, hrlc, Nat.add_comm bin.externalRelocations.length]
    · exact ready r (mem_slots_of_relocations (hrlc ▸ hr))
  have hdn := foldlM_invariant (Relocating P m i s) (fun r todo s' t' h' => h'.round layout careful enough) hsr hu
  have hpnt : Pointing P m i s bin.pointers u := by
    refine ⟨?_, fun r hr => hpoi ▸ hr, fun r hr => hdn.bound r hr not_mem_nil, fun r hr hnot => absurd (hpoi ▸ hr) hnot⟩
    rw [← hpoi]
    exact hdn.toLinking
  exact foldlM_invariant (Pointing P m i s) (fun r todo s' t' h' => h'.round layout careful' enough) hpnt h

end Linker
end TouchHLE.Dyld
