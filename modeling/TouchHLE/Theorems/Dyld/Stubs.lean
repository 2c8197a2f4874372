import TouchHLE.Theorems.Dyld.Linking

/-! The stubs of a binary. A stub calls the lazy linker until it is called for the first time, and is then either an SVC of
    its own or jumps through its lazy pointer. -/

namespace TouchHLE.Dyld
open Lib List Image
open Mem (wrap)
open Environment (readLe)
variable {F C : Type}

namespace Linker
variable {P : Image F C} {m : Nat → UInt8} {s t : Linker F C} {i k : Nat} {st : Stub}
variable {i' k' a w pc p : Nat} {W : Spot → Prop} {expected : List Nat} {bin : MachO} {stubs : Section} {symbol : Symbol}

/-! ### The states of a stub -/

def atStub (i k : Nat) (x : Spot) : Prop := (∃ w, x = .code i k w) ∨ x = .lazy i k

theorem not_atStub_data : ¬atStub i k (.data i' k') := by simp [atStub]

theorem not_atStub_slot : ¬atStub i k (.slot i' a) := by simp [atStub]

theorem atStub_inj {x} (h : atStub i k x) (h' : atStub i' k' x) : i = i' ∧ k = k' := by
  rcases h with ⟨w, rfl⟩ | rfl
  · rcases h' with ⟨w', hw'⟩ | hw'
    · exact ⟨(Spot.code.inj hw').1, (Spot.code.inj hw').2.1⟩
    · cases hw'
  · rcases h' with ⟨w', hw'⟩ | hw'
    · cases hw'
    · exact Spot.lazy.inj hw'

/-- The function invokes the implementation of the stub's symbol, if it has one. -/
def Suits (P : Image F C) (st : Stub) (invokes : Impl F → Prop) : Prop :=
  ∀ symbol impl, st.symbol = some symbol → P.implementation symbol = some impl → invokes impl

def Restored (s : Linker F C) (st : Stub) : Prop :=
  ∀ w instr, st.instructions[w]? = some instr → s.read (st.pc + 4 * w) = instr

inductive StubState (P : Image F C) (m : Nat → UInt8) (s : Linker F C) (st : Stub) : Prop where
  | fresh (code : s.read st.pc = 0xef000000 + if st.entrySize = 4 then svcLazyLinkRetFlag else svcLazyLink)
      (ret : st.entrySize ≠ 4 → s.read (st.pc + 4) = encodeA32Ret)
  | linked (svc : Nat) (f : F) (code : s.read st.pc = 0xef000000 + svc) (dispatches : Dispatches s svc f)
      (suits : Suits P st (· = .host f))
  | restored (code : Restored s st) (suits : Suits P st (Good P s (s.read (st.pointer m))))

def Stub.Sized (st : Stub) : Prop := st.entrySize = 4 ∨ st.entrySize = 12 ∨ st.entrySize = 16

theorem Stub.Sized.length_instructions (h : Stub.Sized st) : st.instructions.length = st.instructionCount := by
  unfold Stub.instructions Stub.instructionCount
  rcases h with h | h | h
  · simp [h]
  · simp [h, symbolStubInstructions]
  · simp [h, picSymbolStubInstructions]

theorem Stub.Sized.count_pos (h : Stub.Sized st) : 0 < st.instructionCount := by
  unfold Stub.instructionCount
  rcases h with h | h | h
  · simp [h]
  · simp [h]
  · simp [h]

theorem Stub.Sized.one_lt_count (h : Stub.Sized st) (hsz : st.entrySize ≠ 4) : 1 < st.instructionCount := by
  unfold Stub.instructionCount
  rcases h with h | h | h
  · exact absurd h hsz
  · simp [h]
  · simp [h]

theorem read_code (grows : Grows P m W s t) (hst : (P.stubs i)[k]? = some st)
    (hw : w < st.instructionCount) (hW : ¬W (.code i k w)) : t.read (st.pc + 4 * w) = s.read (st.pc + 4 * w) := by
  have hsm := grows.spots _ (mem_code hst hw) hW
  rwa [address_code hst] at hsm

theorem StubState.grows (h : StubState P m s st) (grows : Grows P m W s t)
    (hst : (P.stubs i)[k]? = some st) (sized : Stub.Sized st) (hW : ∀ x, atStub i k x → ¬W x) : StubState P m t st := by
  have hco := fun {w} hw =>
    read_code grows hst hw (hW _ (.inl ⟨w, rfl⟩))
  cases h with
  | fresh code ret =>
    refine .fresh ((hco sized.count_pos).trans code) fun hsz => ?_
    exact (hco (sized.one_lt_count hsz)).trans (ret hsz)
  | linked svc f code dispatches suits =>
    exact .linked svc f ((hco sized.count_pos).trans code) (dispatches.functions grows.functions) suits
  | restored code suits =>
    have hlzy := grows.spots _ (mem_lazy hst) (hW _ (.inr rfl))
    rw [address_lazy hst] at hlzy
    refine .restored (fun w instr hw => ?_) fun symbol impl hsy hip => ?_
    · have hlt := (List.getElem?_eq_some_iff.mp hw).1
      rw [sized.length_instructions] at hlt
      exact (hco hlt).trans (code w instr hw)
    · rw [hlzy]
      exact (suits symbol impl hsy hip).grows grows

section
variable (layout : Layout P m) (hst : (P.stubs i)[k]? = some st)
include layout hst

theorem wrote_code (hw : w < st.instructionCount) (hW : W (.code i k w)) (s : Linker F C) (v : Nat) :
    Wrote P m (onSpots W) s (s.write (st.pc + 4 * w) v) := by
  have hwr := Wrote.spot layout (mem_code hst hw) hW s v
  rwa [address_code hst] at hwr

theorem setupStub_eq_ok (sized : Stub.Sized st)
    (h : setupStub st.entrySize expected s st.pc = .ok t) :
    Wrote P m (onSpots (atStub i k)) s t ∧ StubState P m t st := by
  have hco : ∀ w, w < st.instructionCount → ∀ (u : Linker F C) v,
      Wrote P m (onSpots (atStub i k)) u (u.write (st.pc + 4 * w) v) := fun w hw u v =>
    wrote_code layout hst hw (.inl ⟨w, rfl⟩) u v
  unfold setupStub at h
  split at h
  · cases h
  split at h
  · rename_i hsz
    cases h
    refine ⟨hco 0 sized.count_pos s _, .fresh ?_ fun hnot => absurd hsz hnot⟩
    rw [if_pos hsz]
    exact read_write_self (by decide)
  · rename_i hsz
    simp only [encodeA32Svc_of_lt (show svcLazyLink < 2 ^ 24 by decide), ok_bind] at h
    set s₁ := (s.write st.pc (0xef000000 + svcLazyLink)).write (st.pc + 4) encodeA32Ret with hs₁
    have hwr : Wrote P m (onSpots (atStub i k)) s s₁ :=
      (hco 0 sized.count_pos s _).trans (hco 1 (sized.one_lt_count hsz) _ _)
    have hfs : s₁.read st.pc = 0xef000000 + svcLazyLink := by
      rw [hs₁, read_write_of_apart (by omega), read_write_self (by decide)]
    have hsec : s₁.read (st.pc + 4) = encodeA32Ret := read_write_self (by decide)
    split at h
    · rename_i hlng
      cases h
      refine ⟨hwr.trans (hco 2 (by simp [Stub.instructionCount, hlng]) _ _), .fresh ?_ fun _ => ?_⟩
      · rw [if_neg hsz, read_write_of_apart (by omega), hfs]
      · rw [read_write_of_apart (by omega), hsec]
    · rw [← Except.ok.inj h]
      refine ⟨hwr, .fresh ?_ fun _ => hsec⟩
      rw [if_neg hsz, hfs]

def atStubs (i : Nat) (x : Spot) : Prop := ∃ k, atStub i k x

structure SettingUp (P : Image F C) (m : Nat → UInt8) (i : Nat) (s₀ : Linker F C) (todo : List Nat) (s : Linker F C) : Prop where
  wrote : Wrote P m (onSpots (atStubs i)) s₀ s
  sub : ∀ k ∈ todo, k < (P.stubs i).length
  fresh : ∀ k st, (P.stubs i)[k]? = some st → k ∉ todo → StubState P m s st

omit layout hst in
theorem SettingUp.round (layout : Layout P m) {s₀} {todo}
    (sized : ∀ st ∈ P.stubs i, Stub.Sized st) {size : Nat} (h : SettingUp P m i s₀ (k :: todo) s)
    (hpc : ∀ st, (P.stubs i)[k]? = some st → st.pc = pc ∧ st.entrySize = size)
    (hsp : setupStub size expected s pc = .ok t) : SettingUp P m i s₀ todo t := by
  have hget : (P.stubs i)[k]? = some ((P.stubs i).get ⟨k, h.sub k mem_cons_self⟩) := getElem?_eq_getElem _
  obtain ⟨rfl, rfl⟩ := hpc _ hget
  obtain ⟨hwr, hfh⟩ := setupStub_eq_ok layout hget (sized _ (mem_of_getElem? hget)) hsp
  have hmon : Wrote P m (onSpots (atStubs i)) s t := by
    refine ⟨hwr.only, fun x hx hnot => hwr.same x hx fun hin => hnot ?_⟩
    cases x with
    | spot x => exact ⟨k, hin⟩
    | heap n w => exact hin
  refine ⟨h.wrote.trans hmon, fun k' hk' => h.sub k' (mem_cons_of_mem _ hk'), fun k' st' hst' hnot => ?_⟩
  rcases eq_or_ne k' k with rfl | hne
  · rw [hget] at hst'
    cases hst'
    exact hfh
  · have hold := h.fresh k' st' hst' fun hin => (mem_cons.mp hin).elim hne hnot
    refine hold.grows hwr.grows hst' (sized st' (mem_of_getElem? hst')) fun x hx hx' => ?_
    exact hne (atStub_inj hx hx').2

structure Entry (P : Image F C) (i k : Nat) (st : Stub) (bin : MachO) (stubs : Section) (info : DyldIndirectSymbolInfo) : Prop where
  hasBin : P.bins[i]? = some bin
  hasStubs : bin.symbolStubs = some stubs
  hasInfo : stubs.dyldIndirectSymbolInfo = some info
  lt : k < stubs.size / info.entrySize
  pc : st.pc = stubs.addr + k * info.entrySize
  entrySize : st.entrySize = info.entrySize
  offset : st.picOffset = picOffset bin stubs
  symbol : st.symbol = info.indirectUndefSymbols[k]?.join

omit layout hst in
theorem exists_entry (hst : (P.stubs i)[k]? = some st) : ∃ bin stubs info, Entry P i k st bin stubs info := by
  unfold stubs at hst
  cases hbin : P.bins[i]? with
  | none => simp [hbin] at hst
  | some bin =>
    simp only [hbin, Option.elim_some, MachO.stubs] at hst
    cases hsb : bin.symbolStubs with
    | none => simp [hsb] at hst
    | some stubs =>
      simp only [hsb] at hst
      cases hio : stubs.dyldIndirectSymbolInfo with
      | none => simp [hio] at hst
      | some info =>
        simp only [hio, getElem?_map] at hst
        obtain ⟨k', hk', rfl⟩ := Option.map_eq_some_iff.mp hst
        obtain ⟨hlt, hk'⟩ := List.getElem?_eq_some_iff.mp hk'
        rw [List.getElem_range] at hk'
        subst hk'
        rw [length_range] at hlt
        exact ⟨bin, stubs, info, hbin, hsb, hio, hlt, rfl, rfl, rfl, rfl⟩

omit layout hst in
theorem setupLazyLinking_sets_up (layout : Layout P m) (hbin : P.bins[i]? = some bin)
    (h : s.setupLazyLinking bin = .ok t) :
    Wrote P m (onSpots (atStubs i)) s t ∧ ∀ (k : Nat) (st : Stub), (P.stubs i)[k]? = some st → Stub.Sized st ∧ StubState P m t st := by
  have hsb : P.stubs i = bin.stubs := by rw [stubs, hbin]; rfl
  unfold setupLazyLinking at h
  cases hsct : bin.symbolStubs with
  | none =>
    simp only [hsct] at h
    cases h
    refine ⟨.refl s, fun k st hst => ?_⟩
    simp [hsb, MachO.stubs, hsct] at hst
  | some stubs =>
    simp only [hsct] at h
    cases hio : stubs.dyldIndirectSymbolInfo with
    | none =>
      simp only [hio] at h
      cases h
    | some info =>
      simp only [hio] at h
      obtain ⟨expected, hep, h⟩ := bind_eq_ok.mp h
      have hsz : info.entrySize = 4 ∨ info.entrySize = 12 ∨ info.entrySize = 16 := by
        unfold expectedInstructions at hep
        split at hep
        · exact .inl ‹_›
        split at hep
        · exact .inr (.inl ‹_›)
        split at hep
        · exact .inr (.inr ‹_›)
        · cases hep
      split at h
      · cases h
      rw [foldlM_map] at h
      have hio' : ∀ k st, (P.stubs i)[k]? = some st →
          st.pc = stubs.addr + k * info.entrySize ∧ st.entrySize = info.entrySize := by
        intro k st hst
        obtain ⟨_, _, _, entry⟩ := exists_entry hst
        cases hbin.symm.trans entry.hasBin
        cases hsct.symm.trans entry.hasStubs
        cases hio.symm.trans entry.hasInfo
        exact ⟨entry.pc, entry.entrySize⟩
      have sized : ∀ st ∈ P.stubs i, Stub.Sized st := by
        intro st hst
        obtain ⟨k, hk⟩ := mem_iff_getElem?.mp hst
        unfold Stub.Sized
        rw [(hio' k st hk).2]
        exact hsz
      have hln : (P.stubs i).length = stubs.size / info.entrySize := by
        simp [hsb, MachO.stubs, hsct, hio]
      have hsr : SettingUp P m i s (.range (stubs.size / info.entrySize)) s := by
        refine ⟨.refl s, fun k hk => hln ▸ List.mem_range.mp hk, fun k st hst hnot => ?_⟩
        exact absurd (List.mem_range.mpr (hln ▸ (List.getElem?_eq_some_iff.mp hst).1)) hnot
      have hdn := foldlM_invariant (SettingUp P m i s)
        (fun k todo s' t' h' hsp => h'.round layout sized (hio' k) hsp) hsr h
      exact ⟨hdn.wrote, fun k st hst =>
        ⟨sized st (mem_of_getElem? hst), hdn.fresh k st hst not_mem_nil⟩⟩

/-! ### Finding the stub -/

omit layout hst in
theorem findSome_stubsAt {bins : List MachO} (hset : bins.Pairwise StubsApart) (hbin : bin ∈ bins)
    (hsb : bin.symbolStubs = some stubs) (hlow : stubs.addr ≤ pc)
    (hhg : pc < stubs.addr + stubs.size) : bins.findSome? (stubsAt pc) = some (stubs, picOffset bin stubs) := by
  have hat : stubsAt pc bin = some (stubs, picOffset bin stubs) := by
    simp [stubsAt, hsb, hlow, hhg]
  induction bins with
  | nil => cases hbin
  | cons first bins ih =>
    obtain ⟨hfs, hset⟩ := pairwise_cons.mp hset
    rcases mem_cons.mp hbin with rfl | hbin
    · rw [findSome?_cons_of_isSome (by rw [hat]; rfl), hat]
    · have hno : stubsAt pc first = none := by
        unfold stubsAt
        cases hoh : first.symbolStubs with
        | none => rfl
        | some stubs' =>
          have hap := hfs bin hbin stubs' hoh stubs hsb
          exact if_neg (by omega)
      rw [findSome?_cons, hno]
      exact ih hset hbin

/-- The lazy linker links the symbol of the stub, and stops the emulator if it has none. -/
theorem doLazyLink_stub (sized : Stub.Sized st) :
    (∀ symbol, st.symbol = some symbol → s.doLazyLink P st.pc = s.linkSymbol P symbol st.pc st.entrySize st.picOffset) ∧
      (st.symbol = none → ∃ panic, s.doLazyLink P st.pc = .error panic) := by
  obtain ⟨bin, stubs, info, entry⟩ := exists_entry hst
  have hpos : 0 < info.entrySize := by
    rw [← entry.entrySize]
    unfold Stub.Sized at sized
    omega
  have hoff : st.pc - stubs.addr = k * info.entrySize := by rw [entry.pc, Nat.add_sub_cancel_left]
  have hins : k * info.entrySize < stubs.size :=
    Nat.lt_of_lt_of_le ((Nat.mul_lt_mul_right hpos).mpr entry.lt) (Nat.div_mul_le_self _ _)
  have hfn := findSome_stubsAt layout.sections (mem_of_getElem? entry.hasBin) entry.hasStubs
    (show stubs.addr ≤ st.pc by rw [entry.pc]; exact Nat.le_add_right _ _)
    (by rw [entry.pc]; exact Nat.add_lt_add_left hins _)
  rw [entry.symbol, entry.entrySize, entry.offset]
  simp only [doLazyLink, hfn, entry.hasInfo, hoff, Nat.pos_iff_ne_zero.mp hpos, Nat.mul_mod_left,
    Nat.mul_div_left k hpos, ne_eq, not_true_eq_false, if_false]
  cases info.indirectUndefSymbols[k]? with
  | none => exact ⟨nofun, fun _ => ⟨_, rfl⟩⟩
  | some symbol =>
    cases symbol with
    | none => exact ⟨nofun, fun _ => ⟨_, rfl⟩⟩
    | some symbol =>
      refine ⟨?_, nofun⟩
      rintro _ ⟨⟩
      rfl

omit layout hst in
theorem read_writeAll_before {b : Nat} (instrs : List Nat) (h : a + 4 ≤ b) : (s.writeAll b instrs).read a = s.read a := by
  induction instrs generalizing s b with
  | nil => rfl
  | cons instr rest ih =>
    rw [writeAll, ih (by omega), read_write_of_apart (.inr h)]

omit layout hst in
theorem read_writeAll {instr : Nat} (instrs : List Nat) (hlt : ∀ instr ∈ instrs, instr < 2 ^ 32)
    (hw : instrs[w]? = some instr) : (s.writeAll a instrs).read (a + 4 * w) = instr := by
  induction instrs generalizing s a w with
  | nil => cases hw
  | cons first rest ih =>
    cases w with
    | zero =>
      cases hw
      refine (read_writeAll_before rest (Nat.le_refl _)).trans ?_
      exact read_write_self (hlt instr mem_cons_self)
    | succ w =>
      rw [show a + 4 * (w + 1) = a + 4 + 4 * w by omega]
      exact ih (fun instr hmem => hlt instr (mem_cons_of_mem _ hmem)) hw

theorem wrote_writeAll (instrs : List Nat)
    (hcn : w + instrs.length ≤ st.instructionCount) (s : Linker F C) :
    Wrote P m (onSpots (atStub i k)) s (s.writeAll (st.pc + 4 * w) instrs) := by
  induction instrs generalizing s w with
  | nil => exact .refl s
  | cons first rest ih =>
    rw [length_cons] at hcn
    have hfs := wrote_code (W := atStub i k) layout hst (by omega) (.inl ⟨w, rfl⟩) s first
    exact hfs.trans (ih (w := w + 1) (by omega) _)

theorem instructions_lt (sized : Stub.Sized st) : ∀ instr ∈ st.instructions, instr < 2 ^ 32 := by
  intro instr hinr
  unfold Stub.instructions at hinr
  rcases sized with hsz | hsz | hsz
  · have hoff := layout.offsets i (lt_of_stub hst) st (mem_of_getElem? hst) hsz
    rw [if_pos hsz, mem_singleton, stub_instruction hoff] at hinr
    omega
  · rw [hsz] at hinr
    simp [symbolStubInstructions] at hinr
    omega
  · rw [hsz] at hinr
    simp [picSymbolStubInstructions] at hinr
    omega

end

theorem callStub_of_svc {svc : Nat} (hco : s.read st.pc = 0xef000000 + svc) (hlt : svc < 2 ^ 24) :
    s.callStub P st.pc = s.getSvcHandler P st.pc svc >>= resume st.pc := by
  have hdiv : s.read st.pc / 2 ^ 24 = 0xef := by omega
  have hmod : s.read st.pc % 2 ^ 24 = svc := by omega
  unfold callStub
  rw [if_pos hdiv, hmod]

theorem callStub_of_fresh
    (hco : s.read st.pc = 0xef000000 + if st.entrySize = 4 then svcLazyLinkRetFlag else svcLazyLink) :
    s.callStub P st.pc = s.doLazyLink P st.pc >>= resume st.pc := by
  have hlzy : ∀ svc, svc = svcLazyLink ∨ svc = svcLazyLinkRetFlag → s.getSvcHandler P st.pc svc = s.doLazyLink P st.pc :=
    fun svc hsvc => if_pos hsvc
  split at hco
  · rw [callStub_of_svc hco (by decide), hlzy _ (.inr rfl)]
  · rw [callStub_of_svc hco (by decide), hlzy _ (.inl rfl)]

section
variable (layout : Layout P m) (core : Core P m s) (room : Room s) (hst : (P.stubs i)[k]? = some st) (sized : Stub.Sized st)
include core hst sized

theorem Core.pointer_eq : st.pointer m = if st.entrySize = 12 then s.read (st.pc + 8)
      else if st.entrySize = 4 then wrap (st.pc + st.picOffset + 8)
      else wrap (st.pc + s.read (st.pc + 12) + 12) := by
  have hdat : st.entrySize ≠ 4 → s.read (st.pc + 4 * st.instructionCount) = readLe m (st.pc + 4 * st.instructionCount) 4 := by
    intro hsz
    have hwd := core.data i k (mem_data hst hsz)
    rwa [address_data hst] at hwd
  unfold Stub.pointer
  unfold Stub.instructionCount at hdat
  rcases sized with hsz | hsz | hsz
  · simp [hsz]
  · have hwd : s.read (st.pc + 8) = readLe m (st.pc + 8) 4 := by simpa [hsz] using hdat
    simp [hsz, hwd]
  · have hwd : s.read (st.pc + 12) = readLe m (st.pc + 12) 4 := by simpa [hsz] using hdat
    simp only [hsz, hwd]
    rfl

include layout

theorem linkByRestoringStub_restores (hp : p < 2 ^ 32) :
    ∃ t, s.linkByRestoringStub p st.pc st.entrySize st.picOffset = .ok t ∧ Wrote P m (onSpots (atStub i k)) s t ∧
      Restored t st ∧ t.read (st.pointer m) = p := by
  have hlt := instructions_lt layout hst sized
  -- The instructions are written first, and so the word after them can still be read.
  have hwr := wrote_writeAll layout hst st.instructions (w := 0) (by rw [sized.length_instructions, Nat.zero_add]) s
  have hcr := core.wrote hwr fun _ _ => not_atStub_data
  have heq : s.linkByRestoringStub p st.pc st.entrySize st.picOffset =
      .ok ((s.writeAll st.pc st.instructions).write (st.pointer m) p) := by
    have hpo := hcr.pointer_eq hst sized
    rcases sized with hsz | hsz | hsz
    · have hoff := layout.offsets i (lt_of_stub hst) st (mem_of_getElem? hst) hsz
      have hrd : (s.write st.pc (0xe59ff000 ||| st.picOffset)).read st.pc &&& 0xFFF = st.picOffset := by
        rw [stub_instruction hoff, read_write_self (by omega)]
        exact (Nat.and_two_pow_sub_one_eq_mod _ 12).trans (by omega)
      simp only [linkByRestoringStub, originalInstructions, hsz, if_true, ok_bind, symbolStub1Instructions,
        headD_cons, hrd, Stub.instructions, writeAll, hpo]
      rfl
    · simp only [hsz, if_true] at hpo
      simp only [Stub.instructions, hsz] at hpo ⊢
      rw [hpo]
      rfl
    · simp only [hsz] at hpo
      simp only [Stub.instructions, hsz] at hpo ⊢
      rw [hpo]
      rfl
  have hlzy := Wrote.spot (W := atStub i k) layout (mem_lazy hst) (.inr rfl) (s.writeAll st.pc st.instructions) p
  rw [address_lazy hst] at hlzy
  refine ⟨_, heq, hwr.trans hlzy, fun w instr hw => ?_, read_write_self hp⟩
  have hcn : w < st.instructionCount := by
    rw [← sized.length_instructions]
    exact (List.getElem?_eq_some_iff.mp hw).1
  have hap := layout.apart _ (mem_places (mem_lazy hst)) _ (mem_places (mem_code hst hcn))
    (by rintro ⟨⟩)
  rw [address_lazy hst, address_code hst] at hap
  rw [read_write_of_apart hap]
  exact read_writeAll st.instructions hlt hw

theorem Restored.jump (restored : Restored s st) :
    s.read st.pc / 2 ^ 24 ≠ 0xef ∧ s.jump st.pc = .ok (s.read (st.pointer m)) := by
  have hpo := core.pointer_eq hst sized
  unfold Restored Stub.instructions at restored
  rcases sized with hsz | hsz | hsz
  · have hoff := layout.offsets i (lt_of_stub hst) st (mem_of_getElem? hst) hsz
    rw [if_pos hsz] at restored
    have hco : s.read st.pc = 0xe59ff000 + st.picOffset := (restored 0 _ rfl).trans (stub_instruction hoff)
    have hmod : (0xe59ff000 + st.picOffset) % 2 ^ 12 = st.picOffset := by omega
    rw [hsz, if_neg (by decide), if_pos rfl] at hpo
    refine ⟨by omega, ?_⟩
    unfold Linker.jump
    rw [if_neg (by omega), if_neg (by omega), if_pos (by omega), hpo, hco, hmod, Nat.add_right_comm]
  · simp only [hsz, if_true] at hpo
    rw [hsz] at restored
    have hfs : s.read st.pc = 0xe59fc000 := restored 0 _ rfl
    have hsec : s.read (st.pc + 4) = 0xe59cf000 := restored 1 _ rfl
    refine ⟨by omega, ?_⟩
    unfold Linker.jump
    rw [if_pos ⟨hfs, hsec⟩, hpo]
  · rw [hsz, if_neg (by decide), if_neg (by decide)] at hpo
    rw [hsz] at restored
    have hfs : s.read st.pc = 0xe59fc004 := restored 0 _ rfl
    have hsec : s.read (st.pc + 4) = 0xe08fc00c := restored 1 _ rfl
    have hthi : s.read (st.pc + 8) = 0xe59cf000 := restored 2 _ rfl
    refine ⟨by omega, ?_⟩
    unfold Linker.jump
    rw [if_neg (by omega), if_pos ⟨hfs, hsec, hthi⟩, hpo, Nat.add_right_comm]

structure Called (P : Image F C) (m : Nat → UInt8) (i k : Nat) (st : Stub) (target : Target F) (s t : Linker F C) : Prop where
  core : Core P m t
  grows : Grows P m (atStub i k) s t
  state : StubState P m t st
  suits : Suits P st (target.Invokes P t)
  constants : t.constantsToLinkLater = s.constantsToLinkLater
  linkedBins : t.linkedBins = s.linkedBins

theorem called_of_restored (hp : p < 2 ^ 32) (hgd : Suits P st (Good P s p)) :
    ∃ t, s.linkByRestoringStub p st.pc st.entrySize st.picOffset = .ok t ∧ t.jump st.pc = .ok p ∧
      Called P m i k st (.pointer p) s t := by
  obtain ⟨t, heq, hwr, hreo, hrd⟩ := linkByRestoringStub_restores layout core hst sized hp
  have hcr := core.wrote hwr fun _ _ => not_atStub_data
  have hsui : Suits P st (Good P t p) := fun symbol impl hsy hip =>
    (hgd symbol impl hsy hip).grows hwr.grows
  have hjmp := (hreo.jump layout hcr hst sized).2
  rw [hrd] at hjmp
  refine ⟨t, heq, hjmp, hcr, hwr.grows, .restored hreo (by rw [hrd]; exact hsui), ?_, by rw [hwr.only], by rw [hwr.only]⟩
  exact fun symbol impl hsy hip => (hsui symbol impl hsy hip).invokes

include room

theorem linkToHost_links (hret : st.entrySize ≠ 4 → s.read (st.pc + 4) = encodeA32Ret) (symbol : Symbol) (f : F) :
    ∃ t svc, s.linkToHost symbol f st.pc st.entrySize = .ok (some f, t) ∧ Grows P m (atStub i k) s t ∧ Core P m t ∧
      t.read st.pc = 0xef000000 + svc ∧ Dispatches t svc f ∧ t.constantsToLinkLater = s.constantsToLinkLater ∧
      t.linkedBins = s.linkedBins := by
  set number := s.linkedHostFunctions.length + svcLinkedFunctionsBase with hnb
  have hrm : number < svcLazyLinkRetFlag := room
  set svc := if st.entrySize = 4 then number + svcLazyLinkRetFlag else number with hsvc
  have hlt : svc < 2 ^ 24 := by
    rw [hsvc]
    unfold svcLazyLinkRetFlag at hrm ⊢
    split <;> omega
  set s₁ : Linker F C := { s with
    linkedHostFunctions := s.linkedHostFunctions ++ [(symbol, f)], svcs := s.svcs ++ [(svc, f)] } with hs₁
  have hwr : Wrote P m (onSpots (atStub i k)) s₁ (s₁.write st.pc (0xef000000 + svc)) :=
    wrote_code layout hst sized.count_pos (.inl ⟨0, rfl⟩) s₁ _
  have hdsp : Dispatches (s₁.write st.pc (0xef000000 + svc)) svc f := by
    refine dispatches_append room rfl ?_
    rw [hsvc]
    split
    · exact .inr rfl
    · exact .inl rfl
  have hret' : ¬(st.entrySize ≠ 4 ∧ (s₁.write st.pc (0xef000000 + svc)).read (st.pc + 4) ≠ encodeA32Ret) := by
    rintro ⟨hsz, hnot⟩
    rw [read_write_of_apart (.inl (Nat.le_refl _))] at hnot
    exact hnot (hret hsz)
  have heq : s.linkToHost symbol f st.pc st.entrySize = .ok (some f, s₁.write st.pc (0xef000000 + svc)) := by
    have hfg : (if st.entrySize = 4 then number ||| svcLazyLinkRetFlag else number) = svc := by
      rw [or_flag hrm]
    have hwp : wrap number = number := room.wrap_svc
    simp only [linkToHost, room.nextIdx, ok_bind, ← hnb, hwp, hrm, not_true_eq_false, and_false, if_false, hfg,
      encodeA32Svc_of_lt hlt, ← hs₁]
    rw [if_neg hret']
  have hgr : Grows P m (atStub i k) s (s₁.write st.pc (0xef000000 + svc)) :=
    { functions := prefix_append _ _
      allocated := Nat.le_refl _
      spots := fun x hx hW => hwr.same _ (mem_places hx) hW
      heap := fun n w hx _ => hwr.same _ hx id }
  refine ⟨_, svc, heq, hgr, ?_, read_write_self (by omega), hdsp, rfl, rfl⟩
  refine core.grows hgr (fun _ _ => not_atStub_data) ?_ (fun e he => ?_) rfl
  · simp only [write, hs₁, length_append, length_singleton]
    omega
  · rcases mem_append.mp he with hold | hnew
    · exact .inl hold
    · cases mem_singleton.mp hnew
      exact .inr hdsp

theorem called_of_linkToHost (hret : st.entrySize ≠ 4 → s.read (st.pc + 4) = encodeA32Ret) (symbol : Symbol) {f : F}
    (hsui : Suits P st (· = .host f)) :
    ∃ t, s.linkToHost symbol f st.pc st.entrySize = .ok (some f, t) ∧ Called P m i k st (.host f) s t := by
  obtain ⟨t, svc, heq, hgr, hcr, hco, hdsp, hcot, hbns⟩ := linkToHost_links layout core room hst sized hret symbol f
  exact ⟨t, heq, hcr, hgr, .linked svc f hco hdsp hsui, hsui, hcot, hbns⟩

theorem callStub_fresh
    (hco : s.read st.pc = 0xef000000 + if st.entrySize = 4 then svcLazyLinkRetFlag else svcLazyLink)
    (hret : st.entrySize ≠ 4 → s.read (st.pc + 4) = encodeA32Ret) (hsy : st.symbol = some symbol) :
    (∃ target t, s.callStub P st.pc = .ok (target, t) ∧ Called P m i k st target s t) ∨
      (∃ panic, s.callStub P st.pc = .error panic) ∧ P.implementation symbol = none := by
  have hcl := callStub_of_fresh (P := P) hco
  rw [(doLazyLink_stub layout hst sized).1 _ hsy] at hcl
  have honl : ∀ {invokes : Impl F → Prop}, (∀ impl, P.implementation symbol = some impl → invokes impl) →
      Suits P st invokes := by
    intro invokes h symbol' impl hsy' hip
    rw [hsy] at hsy'
    cases hsy'
    exact h impl hip
  unfold linkSymbol at hcl
  cases hcch : s.nonLazyHostFunctions symbol with
  | some p =>
    obtain ⟨e, he, htp⟩ := core.cache symbol p hcch
    have hgd : ∀ impl, P.implementation symbol = some impl → Good P s p impl := fun impl hip => by
      rw [implementation_of_host he hip]
      exact htp
    have hlt : p < 2 ^ 32 := (hgd _ (implementation_host he)).lt layout (implementation_host he)
    obtain ⟨t, heq, hjmp, hcll⟩ := called_of_restored layout core hst sized hlt (honl hgd)
    simp only [hcch, heq, ok_bind, resume, hjmp] at hcl
    exact .inl ⟨_, t, hcl, hcll⟩
  | none =>
    simp only [hcch] at hcl
    cases hho : P.hostFunction symbol with
    | some e =>
      obtain ⟨t, heq, hcll⟩ := called_of_linkToHost layout core room hst sized hret e.1
        (honl fun impl hip => implementation_of_host hho hip)
      simp only [hho, heq, ok_bind, resume] at hcl
      exact .inl ⟨_, t, hcl, hcll⟩
    | none =>
      simp only [hho] at hcl
      cases hexp : P.exported symbol with
      | some a =>
        obtain ⟨t, heq, hjmp, hcll⟩ := called_of_restored layout core hst sized (layout.exported_lt hexp)
          (honl fun impl hip => by rw [implementation_of_exported hho hexp hip]; rfl)
        simp only [hexp, heq, ok_bind, resume, hjmp] at hcl
        exact .inl ⟨_, t, hcl, hcll⟩
      | none =>
        have hno := implementation_none hho hexp
        simp only [hexp] at hcl
        split at hcl
        · exact .inr ⟨⟨_, hcl⟩, hno⟩
        · obtain ⟨t, heq, hcll⟩ := called_of_linkToHost (f := P.unimplemented) layout core room hst sized hret
            unimplementedFunction (honl fun impl hip => by rw [hno] at hip; cases hip)
          simp only [heq, ok_bind, resume] at hcl
          exact .inl ⟨_, t, hcl, hcll⟩

/-- A call of a stub goes to the implementation of its symbol, and only panics if there is none. -/
theorem callStub_cases (state : StubState P m s st) :
    (∃ target t, s.callStub P st.pc = .ok (target, t) ∧ Called P m i k st target s t) ∨
      (∃ panic, s.callStub P st.pc = .error panic) ∧ ∀ symbol, st.symbol = some symbol → P.implementation symbol = none := by
  cases state with
  | fresh code ret =>
    cases hsy : st.symbol with
    | none =>
      obtain ⟨panic, hpn⟩ := (doLazyLink_stub layout hst sized).2 hsy
      refine .inr ⟨⟨panic, ?_⟩, fun symbol h => by cases h⟩
      rw [callStub_of_fresh code, hpn, error_bind]
    | some symbol =>
      rcases callStub_fresh layout core room hst sized code ret hsy with hcll | ⟨hpn, hno⟩
      · exact .inl hcll
      · exact .inr ⟨hpn, fun symbol' h => by cases h; exact hno⟩
  | linked svc f code dispatches suits =>
    refine .inl ⟨.host f, s, ?_, core, .refl s, .linked svc f code dispatches suits, suits, rfl, rfl⟩
    rw [callStub_of_svc code dispatches.lt, getSvcHandler_of_dispatches dispatches, ok_bind]
    rfl
  | restored code suits =>
    obtain ⟨hnot, hjmp⟩ := code.jump layout core hst sized
    refine .inl ⟨.pointer (s.read (st.pointer m)), s, ?_, core, .refl s, .restored code suits, ?_, rfl, rfl⟩
    · unfold callStub
      rw [if_neg hnot, hjmp, ok_bind]
    · exact fun symbol impl hsy hip => (suits symbol impl hsy hip).invokes

end
end Linker
end TouchHLE.Dyld
