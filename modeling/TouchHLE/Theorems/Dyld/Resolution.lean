import TouchHLE.Theorems.Dyld.Stubs

/-! One symbol, one implementation: the references that have been linked stay linked, as long as the functions that relocations
    and non-lazy pointers refer to are not provided twice and the numbers of SVCs stay below the flag of the lazy linker. -/

namespace TouchHLE.Dyld
open Lib List
open Mem (wrap)
open Environment (readLe)
variable {F C : Type}

namespace Linker
variable {P : Image F C} {m : Nat → UInt8} {s t : Linker F C} {i k : Nat}

structure Inv (P : Image F C) (m : Nat → UInt8) (s : Linker F C) : Prop where
  core : Core P m s
  stubs : ∀ i ∈ s.linkedBins, ∀ (k : Nat) (st : Stub), (P.stubs i)[k]? = some st → Stub.Sized st ∧ StubState P m s st
  relocations : ∀ i ∈ s.linkedBins, ∀ r ∈ P.relocations i, ¬IsObjc r.2 → Bound P s r.1 (readLe m r.1 4) r.2
  pointers : ∀ i ∈ s.linkedBins, ∀ r ∈ P.pointers i, Bound P s r.1 0 r.2
  unlinked : ∀ i, i ∉ s.linkedBins → ∀ r ∈ P.slots i, s.read r.1 = readLe m r.1 4
  late : ∀ e ∈ s.constantsToLinkLater, ∃ i ∈ s.linkedBins, ∃ r ∈ P.slots i, e.1 = r.1 ∧ P.implementation r.2 = none

theorem inv_new (P : Image F C) (m : Nat → UInt8) : Inv P m (new m) where
  core := core_new P m
  stubs _ hi := absurd hi not_mem_nil
  relocations _ hi := absurd hi not_mem_nil
  pointers _ hi := absurd hi not_mem_nil
  unlinked _ _ _ _ := rfl
  late _ he := absurd he not_mem_nil

theorem Inv.grows {W} (inv : Inv P m s) (grows : Grows P m W s t) (core : Core P m t)
    (hW : ∀ i a, ¬W (.slot i a))
    (hsb : ∀ i ∈ s.linkedBins, ∀ (k : Nat) (st : Stub), (P.stubs i)[k]? = some st → StubState P m t st)
    (constants : t.constantsToLinkLater = s.constantsToLinkLater) (linkedBins : t.linkedBins = s.linkedBins) : Inv P m t where
  core := core
  stubs i hi k st hst := by
    rw [linkedBins] at hi
    exact ⟨(inv.stubs i hi k st hst).1, hsb i hi k st hst⟩
  relocations i hi r hr hoj := by
    rw [linkedBins] at hi
    exact (inv.relocations i hi r hr hoj).grows grows (mem_slots_of_relocations hr) (hW i r.1)
  pointers i hi r hr := by
    rw [linkedBins] at hi
    exact (inv.pointers i hi r hr).grows grows (mem_slots_of_pointers hr) (hW i r.1)
  unlinked i hi r hr := by
    rw [linkedBins] at hi
    exact (grows.spots _ (Image.mem_slot hr) (hW i r.1)).trans (inv.unlinked i hi r hr)
  late e he := by
    rw [constants] at he
    rw [linkedBins]
    exact inv.late e he

theorem Inv.steady (inv : Inv P m s) (steady : Steady P m s t) : Inv P m t := by
  refine inv.grows (steady.grows fun _ => False) steady.core (fun _ _ => id) (fun i hi k st hst => ?_) steady.constants
    steady.linkedBins
  obtain ⟨sized, state⟩ := inv.stubs i hi k st hst
  exact state.grows (steady.grows fun _ => False) hst sized fun _ _ => id

theorem Inv.called {st} {target} (inv : Inv P m s) (hst : (P.stubs i)[k]? = some st)
    (called : Called P m i k st target s t) : Inv P m t := by
  refine inv.grows called.grows called.core (fun _ _ => not_atStub_slot) (fun i' hi' k' st' hst' => ?_) called.constants
    called.linkedBins
  by_cases heq : i' = i ∧ k' = k
  · obtain ⟨rfl, rfl⟩ := heq
    rw [hst] at hst'
    cases hst'
    exact called.state
  · obtain ⟨sized, state⟩ := inv.stubs i' hi' k' st' hst'
    exact state.grows called.grows hst' sized fun x hx hx' => heq (atStub_inj hx hx')

def atConstants (P : Image F C) (s : Linker F C) (x : Spot) : Prop :=
  ∃ i ∈ s.linkedBins, ∃ r ∈ P.slots i, x = .slot i r.1 ∧ P.implementation r.2 = none

section
variable (layout : Layout P m)
include layout

theorem wrote_constants {W} (toLink : List (Nat × C)) (symbolPtr : Nat × C → Nat)
    (hW : ∀ e ∈ toLink, ∃ x ∈ P.spots, W x ∧ P.address m (.spot x) = e.1) (s : Linker F C) :
    Wrote P m (onSpots W) s (toLink.foldl (fun self e => self.write e.1 (symbolPtr e)) s) := by
  induction toLink generalizing s with
  | nil => exact .refl s
  | cons e rest ih =>
    obtain ⟨x, hx, hWx, hadr⟩ := hW e mem_cons_self
    have hfs := Wrote.spot layout hx hWx s (symbolPtr e)
    rw [hadr] at hfs
    exact hfs.trans (ih (fun e' he' => hW e' (mem_cons_of_mem _ he')) _)

theorem Inv.doLateLinking (inv : Inv P m s) (symbolPtr : Nat × C → Nat) : Inv P m (s.doLateLinking symbolPtr) := by
  set s₁ : Linker F C := { s with constantsToLinkLater := [] } with hs₁
  have hwr : Wrote P m (onSpots (atConstants P s)) s₁ (s.doLateLinking symbolPtr) := by
    refine wrote_constants layout s.constantsToLinkLater symbolPtr (fun e he => ?_) s₁
    obtain ⟨i, hi, r, hr, had, hno⟩ := inv.late e he
    exact ⟨.slot i r.1, Image.mem_slot hr, ⟨i, hi, r, hr, rfl, hno⟩, had.symm⟩
  have hgr := (Grows.of_eq (s := s) (t := s₁) rfl rfl rfl).trans hwr.grows
  have hbns : (s.doLateLinking symbolPtr).linkedBins = s.linkedBins := by rw [hwr.only]
  have hcr : Core P m (s.doLateLinking symbolPtr) := by
    have hcr₁ : Core P m s₁ :=
      inv.core.grows (.of_eq (W := fun _ => False) rfl rfl rfl) (fun _ _ => id) inv.core.room (fun _ he => .inl he) rfl
    refine hcr₁.wrote hwr fun i k hnot => ?_
    obtain ⟨_, _, _, _, heq, _⟩ := hnot
    cases heq
  -- What shares its slot with a constant has the symbol of the constant, and so no implementation.
  have hbn : ∀ {i : Nat} {r : Nat × Symbol} {offset : Nat}, r ∈ P.slots i → Bound P s r.1 offset r.2 →
      Bound P (s.doLateLinking symbolPtr) r.1 offset r.2 := by
    intro i r offset hr hold
    by_cases hat : atConstants P s (.slot i r.1)
    · obtain ⟨i', _, r', hr', heq, hno⟩ := hat
      obtain ⟨rfl, had⟩ := Spot.slot.inj heq
      rw [← layout.symbols i (Image.lt_of_slot hr) r hr r' hr' had] at hno
      exact bound_of_none hno
    · exact hold.grows hgr hr hat
  refine ⟨hcr, fun i hi k st hst => ?_, fun i hi r hr hoj => ?_, fun i hi r hr => ?_, fun i hi r hr => ?_, fun e he => ?_⟩
  · rw [hbns] at hi
    obtain ⟨sized, state⟩ := inv.stubs i hi k st hst
    refine ⟨sized, state.grows hgr hst sized fun x hx hx' => ?_⟩
    obtain ⟨_, _, _, _, rfl, _⟩ := hx'
    exact not_atStub_slot hx
  · rw [hbns] at hi
    exact hbn (mem_slots_of_relocations hr) (inv.relocations i hi r hr hoj)
  · rw [hbns] at hi
    exact hbn (mem_slots_of_pointers hr) (inv.pointers i hi r hr)
  · rw [hbns] at hi
    refine (hgr.spots _ (Image.mem_slot hr) fun hat => ?_).trans (inv.unlinked i hi r hr)
    obtain ⟨i', hi', _, _, heq, _⟩ := hat
    exact hi ((Spot.slot.inj heq).1 ▸ hi')
  · rw [hwr.only] at he
    cases he

theorem Inv.linkBinary (inv : Inv P m s) (careful : Careful P s (.linkBinary i))
    (h : s.linkBinary P i = .ok t) : Inv P m t := by
  obtain ⟨hnew, hrlc, hpoi, heng⟩ := careful
  unfold Linker.linkBinary at h
  cases hbin : P.bins[i]? with
  | none =>
    simp only [hbin] at h
    cases h
  | some bin =>
    simp only [hbin] at h
    obtain ⟨s₁, hseu, h⟩ := bind_eq_ok.mp h
    obtain ⟨s₂, hlik, h⟩ := bind_eq_ok.mp h
    cases h
    obtain ⟨hwr, hfh⟩ := setupLazyLinking_sets_up layout hbin hseu
    have hcr₁ := inv.core.wrote hwr fun i' k' hdat => by
      obtain ⟨k, hk⟩ := hdat
      exact not_atStub_data hk
    have hry : ∀ r ∈ P.slots i, s₁.read r.1 = readLe m r.1 4 := fun r hr => by
      refine (hwr.grows.spots _ (Image.mem_slot hr) fun hslt => ?_).trans (inv.unlinked i hnew r hr)
      obtain ⟨k, hk⟩ := hslt
      exact not_atStub_slot hk
    have heng₁ : s₁.linkedHostFunctions.length + (P.slots i).length + svcLinkedFunctionsBase ≤ svcLazyLinkRetFlag := by
      rw [hwr.only]
      exact heng
    have hpnt := doNonLazyLinking_links layout hbin hcr₁ hry hrlc hpoi heng₁ hlik
    have hbns : s₂.linkedBins = s.linkedBins := by rw [hpnt.linkedBins, hwr.only]
    set W : Spot → Prop := fun x => atStubs i x ∨ atSlots i x with hWdef
    -- Both parts only write words of this binary.
    have hls : ∀ {V : Spot → Prop}, Grows P m V s₂ { s₂ with linkedBins := s₂.linkedBins ++ [i] } := .of_eq rfl rfl rfl
    have hgr : Grows P m W s { s₂ with linkedBins := s₂.linkedBins ++ [i] } :=
      ((hwr.grows.mono fun x hx => .inl hx).trans (hpnt.grows.mono fun x hx => .inr hx)).trans hls
    have hstb : ∀ {i' k : Nat} {x : Spot}, i' ≠ i → atStub i' k x → ¬W x := fun hne hx hW => by
      rcases hW with ⟨k', hk'⟩ | ⟨a, rfl⟩
      · exact hne (atStub_inj hx hk').1
      · exact not_atStub_slot hx
    have hslt : ∀ {i' a : Nat}, i' ≠ i → ¬W (.slot i' a) := fun hne hW => by
      rcases hW with ⟨k', hk'⟩ | ⟨a, ha⟩
      · exact not_atStub_slot hk'
      · exact hne (Spot.slot.inj ha).1
    have hne_of_mem : ∀ {i' : Nat}, i' ∈ s.linkedBins → i' ≠ i := fun hi' heq => hnew (heq ▸ hi')
    have hmem : ∀ {i' : Nat}, i' ∈ s₂.linkedBins ++ [i] → i' ∈ s.linkedBins ∨ i' = i := fun hi' => by
      rw [hbns] at hi'
      exact (mem_append.mp hi').imp id mem_singleton.mp
    refine ⟨hpnt.core.grows (W := fun _ => False) hls (fun _ _ => id) hpnt.core.room (fun _ he => .inl he) rfl,
      fun i' hi' k st hst => ?_, fun i' hi' r hr hoj => ?_, fun i' hi' r hr => ?_, fun i' hi' r hr => ?_, fun e he => ?_⟩
    · rcases hmem hi' with hold | rfl
      · obtain ⟨sized, state⟩ := inv.stubs i' hold k st hst
        exact ⟨sized, state.grows hgr hst sized fun x hx => hstb (hne_of_mem hold) hx⟩
      · obtain ⟨sized, state⟩ := hfh k st hst
        refine ⟨sized, state.grows (hpnt.grows.trans hls) hst sized fun x hx hx' => ?_⟩
        obtain ⟨a, rfl⟩ := hx'
        exact not_atStub_slot hx
    · rcases hmem hi' with hold | rfl
      · exact (inv.relocations i' hold r hr hoj).grows hgr (mem_slots_of_relocations hr)
          (hslt (hne_of_mem hold))
      · exact (hpnt.relocations r hr hoj).grows (hls (V := fun _ => False)) (mem_slots_of_relocations hr) id
    · rcases hmem hi' with hold | rfl
      · exact (inv.pointers i' hold r hr).grows hgr (mem_slots_of_pointers hr) (hslt (hne_of_mem hold))
      · exact (hpnt.bound r hr not_mem_nil).grows (hls (V := fun _ => False)) (mem_slots_of_pointers hr) id
    · have hold : i' ∉ s.linkedBins := fun hin => hi' (mem_append_left _ (hbns ▸ hin))
      have hne : i' ≠ i := fun heq => hi' (mem_append_right _ (mem_singleton.mpr heq))
      exact (hgr.spots _ (Image.mem_slot hr) (hslt hne)).trans (inv.unlinked i' hold r hr)
    · rcases hpnt.constants e he with hold | ⟨r, hr, had, hno⟩
      · rw [hwr.only] at hold
        obtain ⟨i', hi', r, hr, had, hno⟩ := inv.late e hold
        exact ⟨i', mem_append_left _ (hbns ▸ hi'), r, hr, had, hno⟩
      · exact ⟨i, mem_append_right _ mem_cons_self, r, hr, had, hno⟩

theorem Inv.call {c} {result} (inv : Inv P m s) (careful : Careful P s c)
    (h : s.call P c = .ok (result, t)) : Inv P m t := by
  cases c with
  | linkBinary i =>
    obtain ⟨u, hu, h⟩ := bind_eq_ok.mp h
    cases h
    exact inv.linkBinary layout careful hu
  | doLateLinking symbolPtr =>
    cases h
    exact inv.doLateLinking layout symbolPtr
  | callStub pc =>
    obtain ⟨⟨i, hi, st, hst, rfl⟩, room⟩ := careful
    obtain ⟨k, hk⟩ := mem_iff_getElem?.mp hst
    obtain ⟨sized, state⟩ := inv.stubs i hi k st hk
    obtain ⟨⟨target, u⟩, hu, h⟩ := bind_eq_ok.mp h
    cases h
    rcases callStub_cases layout inv.core room hk sized state with ⟨target', t', heq, called⟩ | ⟨⟨panic, hpn⟩, _⟩
    · rw [heq] at hu
      cases hu
      exact inv.called hk called
    · rw [hpn] at hu
      cases hu
  | createProcAddress symbol =>
    obtain ⟨⟨address, u⟩, hu, h⟩ := bind_eq_ok.mp h
    cases h
    cases hho : P.hostFunction symbol with
    | none =>
      simp only [Linker.createProcAddress, hho] at hu
      cases hu
      exact inv
    | some e => exact inv.steady (createProcAddress_eq_ok layout inv.core careful.2 hho hu).1
  | createGuestFunction symbol f =>
    obtain ⟨⟨address, u⟩, hu, h⟩ := bind_eq_ok.mp h
    cases h
    have hce := created_of_eq_ok layout careful hu
    exact inv.steady ⟨hce.grows, hce.core inv.core, hce.length.le, hce.constants, hce.linkedBins⟩

theorem Inv.resolved (inv : Inv P m s) : Resolved P m s where
  relocations i hi r hr hoj impl hip := by
    obtain ⟨p, hgd, hrd⟩ := inv.relocations i hi r hr hoj impl hip
    exact ⟨p, hgd.invokes, hrd⟩
  pointers i hi r hr impl hip := by
    obtain ⟨p, hgd, hrd⟩ := inv.pointers i hi r hr impl hip
    rw [hrd, Nat.add_zero, show wrap p = p from Nat.mod_eq_of_lt (hgd.lt layout hip)]
    exact hgd.invokes
  stubs i hi st hst symbol impl hsy hip room := by
    obtain ⟨k, hk⟩ := mem_iff_getElem?.mp hst
    obtain ⟨sized, state⟩ := inv.stubs i hi k st hk
    rcases callStub_cases layout inv.core room hk sized state with ⟨target, t, heq, called⟩ | ⟨_, hno⟩
    · exact ⟨target, t, heq, called.suits symbol impl hsy hip⟩
    · rw [hno symbol hsy] at hip
      cases hip
  procAddress symbol impl hip careful hhea := by
    cases hho : P.hostFunction symbol with
    | none =>
      rw [Image.implementation_none hho (careful.1.resolve_left (by rw [hho]; rintro ⟨⟩))] at hip
      cases hip
    | some e =>
      obtain ⟨r, t, heq⟩ := createProcAddress_of_room layout careful.2 hho hhea
      obtain ⟨_, p, rfl, htp⟩ := createProcAddress_eq_ok layout inv.core careful.2 hho heq
      have hgd : Good P t p impl := by
        rw [Image.implementation_of_host hho hip]
        exact htp
      exact ⟨p, t, heq, hgd.invokes⟩
  svcs e he pc := getSvcHandler_of_dispatches (inv.core.svcs e he) pc

end

/-- In every run that is careful, all references to a symbol invoke its one implementation, and every SVC number is
    dispatched to the function that it was allocated for. -/
theorem resolved_of_runs (layout : Layout P m) (run : Runs (Linker.call P) (Careful P) (new m) s) : Resolved P m s :=
  (run.invariant (inv_new P m) fun _ _ _ _ inv careful hcall => inv.call layout careful hcall).resolved layout

def loaded (words : List (Nat × Nat)) : Nat → UInt8 :=
  words.foldl (fun mem word => Objc.Selectors.writeLe mem word.1 4 word.2) fun _ => 0

def hostLibrary : HostDylib Nat Unit := ⟨[], [[(['_', 'a'], 7), (['_', 'c'], 9)]]⟩

def appBinary : MachO where
  symbolStubs := some ⟨0x1000, 24, some ⟨12, [some ['_', 'a'], some ['_', 'b']]⟩⟩
  lazySymbolPointers := some ⟨0x2000, 8, some ⟨4, []⟩⟩
  nonLazySymbolPointers := some ⟨0x3000, 8, some ⟨4, [some ['_', 'a'], some ['_', 'b']]⟩⟩
  exportedSymbols := []
  externalRelocations := [(0x4000, ['_', 'a'])]

def smallLibrary : MachO where
  symbolStubs := some ⟨0x6000, 4, some ⟨4, [some ['_', 'c']]⟩⟩
  lazySymbolPointers := some ⟨0x6100, 4, some ⟨4, []⟩⟩
  nonLazySymbolPointers := none
  exportedSymbols := [(['_', 'b'], 0x5001)]
  externalRelocations := []

def picLibrary : MachO where
  symbolStubs := some ⟨0x7000, 16, some ⟨16, [some ['_', 'b']]⟩⟩
  lazySymbolPointers := some ⟨0x8000, 4, some ⟨4, []⟩⟩
  nonLazySymbolPointers := none
  exportedSymbols := []
  externalRelocations := []

def threeBinaries : Image Nat Unit := ⟨[hostLibrary], [appBinary, smallLibrary, picLibrary], [0x9000, 0x9008], fun _ _ => 0, (), 0⟩

def threeLoaded : Nat → UInt8 :=
  loaded [(0x1000, 0xe59fc000), (0x1004, 0xe59cf000), (0x1008, 0x2000), (0x100c, 0xe59fc000), (0x1010, 0xe59cf000),
    (0x1014, 0x2004), (0x4000, 8), (0x7000, 0xe59fc004), (0x7004, 0xe08fc00c), (0x7008, 0xe59cf000), (0x700c, 0xff4)]

theorem layout_threeBinaries : Layout threeBinaries threeLoaded where
  apart := by decide +kernel
  bounded := by decide +kernel
  sections := by decide +kernel
  offsets := by decide +kernel
  relocations := by decide +kernel
  symbols := by decide +kernel
  shared := by decide +kernel
  exported := by decide +kernel

def threeCalls : List (Call Nat Unit) :=
  [.linkBinary 0, .linkBinary 1, .linkBinary 2, .callStub 0x1000, .callStub 0x100c, .callStub 0x6000, .callStub 0x7000,
    .createProcAddress ['_', 'a']]

theorem exec_threeCalls :
    (exec (Linker.call threeBinaries) (Careful threeBinaries) (new threeLoaded) threeCalls).isSome = true := by
  decide +kernel

/-- Stubs of all kinds are called, and a function is asked for. -/
theorem resolved_of_runs_three : ∃ s, Runs (Linker.call threeBinaries) (Careful threeBinaries) (new threeLoaded) s ∧
    s.linkedBins = [0, 1, 2] ∧ s.svcs = [(3, 7), (0x800004, 9)] ∧ Resolved threeBinaries threeLoaded s := by
  have hrun := Runs.start.exec threeCalls (Option.some_get exec_threeCalls).symm
  exact ⟨_, hrun, by decide +kernel, by decide +kernel, resolved_of_runs layout_threeBinaries hrun⟩

def shimLibrary : MachO where
  symbolStubs := none
  lazySymbolPointers := none
  nonLazySymbolPointers := none
  exportedSymbols := [(['_', 'a'], 0x5000), (['_', 'b'], 0x5101)]
  externalRelocations := []

def doubledImage : Image Nat Unit := ⟨[hostLibrary], [appBinary, shimLibrary], [0x9000], fun _ _ => 0, (), 0⟩

theorem layout_doubledImage : Layout doubledImage threeLoaded where
  apart := by decide +kernel
  bounded := by decide +kernel
  sections := by decide +kernel
  offsets := by decide +kernel
  relocations := by decide +kernel
  symbols := by decide +kernel
  shared := by decide +kernel
  exported := by decide +kernel

def doubledLinked : Option (Linker Nat Unit) :=
  exec (Linker.call doubledImage) (fun _ _ => True) (new threeLoaded) [.linkBinary 0, .linkBinary 1]

theorem doubledLinked_isSome : doubledLinked.isSome = true := by decide +kernel

/-- The non-lazy pointer has the function of the library, while the stub calls the one of the host. -/
theorem resolved_fails : Layout doubledImage threeLoaded ∧
    ∃ s, Runs (Linker.call doubledImage) (fun _ _ => True) (new threeLoaded) s ∧
      doubledImage.implementation ['_', 'a'] = some (.host 7) ∧ s.read 0x3000 = 0x5000 ∧
      (s.callStub doubledImage 0x1000).toOption.map Prod.fst = some (.host 7) ∧ ¬Resolved doubledImage threeLoaded s := by
  refine ⟨layout_doubledImage, doubledLinked.get doubledLinked_isSome,
    Runs.start.exec [.linkBinary 0, .linkBinary 1] (Option.some_get doubledLinked_isSome).symm, by decide +kernel,
    by decide +kernel, by decide +kernel, fun resolved => ?_⟩
  have hinvokes := resolved.pointers 0 (by decide +kernel) (0x3000, ['_', 'a']) (by decide +kernel) (.host 7)
    (by decide +kernel)
  exact absurd hinvokes.1 (by decide +kernel)

end Linker
end TouchHLE.Dyld
