import TouchHLE.Spec.Linking
import TouchHLE.Theorems.Objc.Selectors

/-! The words of an image and the SVC instructions. What the linker writes to one word leaves the others as they are, the
    table of linked functions only grows, and so what has been established about the rest of the image stays. -/

namespace TouchHLE.Dyld
open Lib List
open Mem (wrap)
open Environment (readLe readLe_congr)
open Objc.Selectors (writeLe writeLe_of_not readLe_writeLe)
variable {F C : Type} {imm svc : Nat}

theorem and_high_eq_zero (h : imm < 2 ^ 24) : imm &&& 0xff000000 = 0 := by
  have hlow : imm &&& (2 ^ 24 - 1) = imm := by rw [Nat.and_two_pow_sub_one_eq_mod, Nat.mod_eq_of_lt h]
  rw [← hlow, Nat.and_assoc]
  exact Nat.and_zero imm

theorem encodeA32Svc_of_lt (h : imm < 2 ^ 24) : encodeA32Svc imm = .ok (0xef000000 + imm) := by
  have hor : imm ||| 0xef000000 = 0xef000000 + imm := by
    rw [Nat.or_comm]
    exact (Nat.two_pow_add_eq_or_of_lt h 0xef).symm
  simp [encodeA32Svc, and_high_eq_zero h, hor]

theorem or_flag (h : svc < svcLazyLinkRetFlag) : svc ||| svcLazyLinkRetFlag = svc + svcLazyLinkRetFlag := by
  rw [Nat.or_comm, Nat.add_comm]
  exact (Nat.two_pow_add_eq_or_of_lt (i := 23) h 1).symm

theorem and_mask (h : svc < svcLazyLinkRetFlag) : svc &&& (2 ^ 32 - 1 - svcLazyLinkRetFlag) = svc := by
  have hlow : svc &&& (2 ^ 23 - 1) = svc := by rw [Nat.and_two_pow_sub_one_eq_mod]; exact Nat.mod_eq_of_lt h
  calc svc &&& (2 ^ 32 - 1 - svcLazyLinkRetFlag)
      = svc &&& (2 ^ 23 - 1) &&& (2 ^ 32 - 1 - svcLazyLinkRetFlag) := by rw [hlow]
    _ = svc &&& (2 ^ 23 - 1) := by rw [Nat.and_assoc]; rfl
    _ = svc := hlow

theorem flag_and_mask (h : svc < svcLazyLinkRetFlag) :
    (svc + svcLazyLinkRetFlag) &&& (2 ^ 32 - 1 - svcLazyLinkRetFlag) = svc := by
  rw [← or_flag h, Nat.and_or_distrib_right, and_mask h]
  exact Nat.or_zero svc

theorem stub_instruction {offset : Nat} (h : offset < 2 ^ 12) : 0xe59ff000 ||| offset = 0xe59ff000 + offset :=
  (Nat.two_pow_add_eq_or_of_lt h 0xe59ff).symm

namespace Image
variable {P : Image F C} {m : Nat → UInt8} {i k w n p : Nat} {st : Stub} {r : Nat × Symbol} {x : Spot}

theorem lt_of_stub (h : (P.stubs i)[k]? = some st) : i < P.bins.length := by
  by_contra hnot
  rw [stubs, getElem?_eq_none (Nat.le_of_not_lt hnot)] at h
  cases h

theorem lt_of_slot (h : r ∈ P.slots i) : i < P.bins.length := by
  by_contra hnot
  rw [slots, getElem?_eq_none (Nat.le_of_not_lt hnot)] at h
  cases h

theorem slots_eq (P : Image F C) (i : Nat) : P.slots i = P.relocations i ++ P.pointers i := by
  unfold slots relocations pointers
  cases P.bins[i]? with
  | none => rfl
  | some bin => rfl

section
variable (h : (P.stubs i)[k]? = some st)
include h

theorem mem_stubSpots (hx : x ∈ stubSpots i (st, k)) : x ∈ P.spots := by
  refine mem_flatMap.mpr ⟨i, mem_range.mpr (lt_of_stub h), mem_append_left _ ?_⟩
  exact mem_flatMap.mpr ⟨(st, k), mem_zipIdx_iff_getElem?.mpr h, hx⟩

theorem mem_code (hw : w < st.instructionCount) : .code i k w ∈ P.spots :=
  mem_stubSpots h (mem_append_left _ (mem_map.mpr ⟨w, mem_range.mpr hw, rfl⟩))

theorem mem_lazy : .lazy i k ∈ P.spots := by
  refine mem_stubSpots h (mem_append_right _ ?_)
  split <;> simp

theorem mem_data (hsz : st.entrySize ≠ 4) : .data i k ∈ P.spots := by
  refine mem_stubSpots h (mem_append_right _ ?_)
  rw [if_neg hsz]
  exact mem_cons_self

end

theorem mem_slot (h : r ∈ P.slots i) : .slot i r.1 ∈ P.spots :=
  mem_flatMap.mpr ⟨i, mem_range.mpr (lt_of_slot h), mem_append_right _ (mem_map.mpr ⟨r, h, rfl⟩)⟩

theorem mem_places (h : x ∈ P.spots) : .spot x ∈ P.places := mem_append_left _ (mem_map.mpr ⟨x, h, rfl⟩)

theorem mem_heap (h : P.heap[n]? = some p) (hw : w < 2) : .heap n w ∈ P.places := by
  refine List.mem_append_right _ (List.mem_flatMap.mpr ⟨n, List.mem_range.mpr (List.getElem?_eq_some_iff.mp h).1, ?_⟩)
  rcases Nat.lt_succ_iff_lt_or_eq.mp hw with hw | rfl
  · rw [Nat.lt_one_iff.mp hw]
    exact mem_cons_self
  · exact mem_cons_of_mem _ mem_cons_self

theorem address_code (h : (P.stubs i)[k]? = some st) (w : Nat) : P.address m (.spot (.code i k w)) = st.pc + 4 * w := by
  simp [address, h]

theorem address_data (h : (P.stubs i)[k]? = some st) :
    P.address m (.spot (.data i k)) = st.pc + 4 * st.instructionCount := by simp [address, h]

theorem address_lazy (h : (P.stubs i)[k]? = some st) : P.address m (.spot (.lazy i k)) = st.pointer m := by
  simp [address, h]

theorem address_heap (h : P.heap[n]? = some p) (w : Nat) : P.address m (.heap n w) = p + 4 * w := by
  simp [address, h]

end Image

namespace Linker
variable {P : Image F C} {m : Nat → UInt8} {s t u : Linker F C} {a b v svc : Nat} {f : F} {impl : Impl F}

theorem read_write_self (h : v < 2 ^ 32) : (s.write a v).read a = v := readLe_writeLe h

theorem read_write_of_apart (h : a + 4 ≤ b ∨ b + 4 ≤ a) : (s.write a v).read b = s.read b :=
  readLe_congr 4 b fun x hlow hhg => writeLe_of_not fun hin => by omega

structure Wrote (P : Image F C) (m : Nat → UInt8) (W : Place → Prop) (s t : Linker F C) : Prop where
  only : t = { s with mem := t.mem }
  same : ∀ x ∈ P.places, ¬W x → t.read (P.address m x) = s.read (P.address m x)

namespace Wrote
variable {W V : Place → Prop}

theorem refl (s : Linker F C) : Wrote P m W s s := ⟨rfl, fun _ _ _ => rfl⟩

theorem trans (h : Wrote P m W s t) (h' : Wrote P m W t u) : Wrote P m W s u := by
  refine ⟨?_, fun x hx hW => (h'.same x hx hW).trans (h.same x hx hW)⟩
  rw [h'.only, h.only]

theorem write (layout : Layout P m) {x} (hx : x ∈ P.places) (hW : W x) (s : Linker F C) (v : Nat) :
    Wrote P m W s (s.write (P.address m x) v) := by
  refine ⟨rfl, fun y hy hnot => read_write_of_apart ?_⟩
  exact layout.apart x hx y hy fun heq => hnot (heq ▸ hW)

end Wrote

/-- Functions have been linked and trampolines added, and only words of the binaries in `W` have been written besides. -/
structure Grows (P : Image F C) (m : Nat → UInt8) (W : Spot → Prop) (s t : Linker F C) : Prop where
  functions : s.linkedHostFunctions <+: t.linkedHostFunctions
  allocated : s.allocated ≤ t.allocated
  spots : ∀ x ∈ P.spots, ¬W x → t.read (P.address m (.spot x)) = s.read (P.address m (.spot x))
  heap : ∀ n w, .heap n w ∈ P.places → n < s.allocated → t.read (P.address m (.heap n w)) = s.read (P.address m (.heap n w))

def onSpots (W : Spot → Prop) : Place → Prop
  | .spot x => W x
  | .heap _ _ => False

namespace Grows
variable {W V : Spot → Prop}

theorem of_eq (hmem : t.mem = s.mem) (hfnc : t.linkedHostFunctions = s.linkedHostFunctions)
    (halo : t.allocated = s.allocated) : Grows P m W s t where
  functions := hfnc ▸ prefix_rfl
  allocated := halo.ge
  spots _ _ _ := by rw [read, read, hmem]
  heap _ _ _ _ := by rw [read, read, hmem]

theorem refl (s : Linker F C) : Grows P m W s s := of_eq rfl rfl rfl

theorem trans (h : Grows P m W s t) (h' : Grows P m W t u) : Grows P m W s u where
  functions := h.functions.trans h'.functions
  allocated := Nat.le_trans h.allocated h'.allocated
  spots x hx hW := (h'.spots x hx hW).trans (h.spots x hx hW)
  heap n w hx hn := (h'.heap n w hx (Nat.lt_of_lt_of_le hn h.allocated)).trans (h.heap n w hx hn)

theorem mono (h : Grows P m W s t) (hsub : ∀ x, W x → V x) : Grows P m V s t where
  functions := h.functions
  allocated := h.allocated
  spots x hx hV := h.spots x hx fun hW => hV (hsub x hW)
  heap := h.heap

end Grows

theorem Wrote.grows {W} (h : Wrote P m (onSpots W) s t) : Grows P m W s t where
  functions := (congrArg linkedHostFunctions h.only).symm ▸ prefix_rfl
  allocated := by rw [h.only]
  spots x hx hW := h.same _ (Image.mem_places hx) hW
  heap n w hx _ := h.same _ hx id

theorem Wrote.spot (layout : Layout P m) {W} {x} (hx : x ∈ P.spots) (hW : W x) (s : Linker F C) (v : Nat) :
    Wrote P m (onSpots W) s (s.write (P.address m (.spot x)) v) :=
  .write layout (Image.mem_places hx) hW s v

/-- The number stands for the function, with the flag of the lazy linker or without it. -/
def Dispatches (s : Linker F C) (svc : Nat) (f : F) : Prop :=
  ∃ idx symbol, s.linkedHostFunctions[idx]? = some (symbol, f) ∧ idx + svcLinkedFunctionsBase < svcLazyLinkRetFlag ∧
    (svc = idx + svcLinkedFunctionsBase ∨ svc = idx + svcLinkedFunctionsBase + svcLazyLinkRetFlag)

theorem Dispatches.lt (h : Dispatches s svc f) : svc < 2 ^ 24 := by
  obtain ⟨idx, symbol, hget, hlt, hsvc⟩ := h
  unfold svcLazyLinkRetFlag at hlt hsvc
  omega

theorem Dispatches.functions (h : Dispatches s svc f)
    (hfnc : s.linkedHostFunctions <+: t.linkedHostFunctions) : Dispatches t svc f := by
  obtain ⟨idx, symbol, hget, hsvc⟩ := h
  obtain ⟨rest, hrs⟩ := hfnc
  refine ⟨idx, symbol, ?_, hsvc⟩
  rw [← hrs, List.getElem?_append_left (List.getElem?_eq_some_iff.mp hget).1, hget]

theorem getSvcHandler_of_dispatches (h : Dispatches s svc f) (pc : Nat) : s.getSvcHandler P pc svc = .ok (some f, s) := by
  obtain ⟨idx, symbol, hget, hlt, hsvc⟩ := h
  have hidx : wrap ((svc &&& (2 ^ 32 - 1 - svcLazyLinkRetFlag)) + 2 ^ 32 - svcLinkedFunctionsBase) = idx := by
    have hmsk : svc &&& (2 ^ 32 - 1 - svcLazyLinkRetFlag) = idx + svcLinkedFunctionsBase := by
      rcases hsvc with rfl | rfl
      · exact and_mask hlt
      · exact flag_and_mask hlt
    unfold wrap
    unfold svcLazyLinkRetFlag at hlt
    omega
  have hlik : ¬(svc = svcLazyLink ∨ svc = svcLazyLinkRetFlag) := by
    simp only [svcLazyLink, svcLinkedFunctionsBase, svcReturnToHost, svcLazyLinkRetFlag] at hlt hsvc ⊢
    omega
  have hext : ¬(svc = svcThreadExit ∨ svc = svcReturnToHost) := by
    simp only [svcThreadExit, svcLinkedFunctionsBase, svcReturnToHost, svcLazyLinkRetFlag] at hlt hsvc ⊢
    omega
  simp only [getSvcHandler, if_neg hlik, if_neg hext, hidx, hget]

theorem dispatches_append {symbol}
    (hrm : s.linkedHostFunctions.length + svcLinkedFunctionsBase < svcLazyLinkRetFlag)
    (ht : t.linkedHostFunctions = s.linkedHostFunctions ++ [(symbol, f)])
    (hsvc : svc = s.linkedHostFunctions.length + svcLinkedFunctionsBase ∨
      svc = s.linkedHostFunctions.length + svcLinkedFunctionsBase + svcLazyLinkRetFlag) : Dispatches t svc f :=
  ⟨s.linkedHostFunctions.length, symbol, by simp [ht], hrm, hsvc⟩

structure Trampoline (P : Image F C) (s : Linker F C) (p : Nat) (f : F) : Prop where
  allocated : ∃ n < s.allocated, P.heap[n]? = some p
  svc : ∃ svc, s.read p = 0xef000000 + svc ∧ Dispatches s svc f
  ret : s.read (p + 4) = encodeA32Ret

theorem Trampoline.grows {W} {p : Nat} (h : Trampoline P s p f) (hgr : Grows P m W s t) :
    Trampoline P t p f := by
  obtain ⟨⟨n, hn, hp⟩, ⟨svc, hrd, hsvc⟩, hret⟩ := h
  have hwd : ∀ w < 2, t.read (p + 4 * w) = s.read (p + 4 * w) := by
    intro w hw
    have hsm := hgr.heap n w (Image.mem_heap hp hw) hn
    rwa [Image.address_heap hp] at hsm
  refine ⟨⟨n, Nat.lt_of_lt_of_le hn hgr.allocated, hp⟩, ⟨svc, ?_, hsvc.functions hgr.functions⟩, ?_⟩
  · exact (hwd 0 Nat.two_pos).trans hrd
  · exact (hwd 1 Nat.one_lt_two).trans hret

/-- What it takes for a pointer to invoke an implementation in every state to come. -/
def Good (P : Image F C) (s : Linker F C) (p : Nat) : Impl F → Prop
  | .host f => Trampoline P s p f
  | .guest addr => p = addr

theorem Good.grows {W} {p : Nat} (h : Good P s p impl) (hgr : Grows P m W s t) :
    Good P t p impl := by
  cases impl with
  | host f => exact .grows h hgr
  | guest addr => exact h

theorem Good.invokes {p : Nat} (h : Good P s p impl) : Invokes P s p impl := by
  cases impl with
  | guest addr => exact h
  | host f =>
    obtain ⟨svc, hrd, hsvc⟩ := Trampoline.svc h
    have hlt := hsvc.lt
    have hdiv : s.read p / 2 ^ 24 = 0xef := by omega
    have hmod : s.read p % 2 ^ 24 = svc := by omega
    refine ⟨hdiv, ?_⟩
    rw [hmod]
    exact getSvcHandler_of_dispatches hsvc p

end Linker
end TouchHLE.Dyld
