import TouchHLE.Libc.Setjmp

/-! `touchHLE/src/libc/unwind_sjlj.rs`: the exceptions of guest code, from the throw to the landing pad. -/

namespace TouchHLE.Libc.Jump
open Lib Abi

def FC_PREV : Word := 0
def FC_PERSONALITY : Word := 24
def JBUF_FP : Word := 32
def JBUF_PC : Word := 36
def JBUF_SP : Word := 40

def uaSearchPhase : Word := 1
def uaCleanupPhase : Word := 2
def uaHandlerFrame : Word := 4

def urcFatalPhase2Error : Int := 2
def urcFatalPhase1Error : Int := 3
def urcEndOfStack : Int := 5
def urcHandlerFound : Int := 6
def urcInstallContext : Int := 7
def urcContinueUnwind : Int := 8

namespace Guest

def w32 (self : Guest) (addr : Word) (val : Word) : Except Panic Guest :=
  if addr.toNat + 4 ≤ 2 ^ 32 then .ok { self with mem := writeStruct self.mem addr.toNat [val] } else .error .sliceRange

/-- What a personality routine does is up to the guest: it is given the actions, the class of the exception, the exception and
    the context. -/
abbrev Personality := Word → Word → Word × Word → Word → Word → Guest → Except Panic (Int × Guest)

variable (routine : Personality) (exc : Word)

def callPersonality (personality actions ctx : Word) (self : Guest) : Except Panic (Int × Guest) :=
  if personality = 0 then .ok (urcContinueUnwind, self)
  else do
    let ecl ← self.r32 exc.toNat
    let ech ← self.r32 (exc + 4).toNat
    routine personality actions (ecl, ech) exc ctx self

def installAndLongjmp (self : Guest) (fc : Word) : Except Panic Guest := do
  let newFp ← self.r32 (JBUF_FP + fc).toNat
  let newPc ← self.r32 (JBUF_PC + fc).toNat
  let newSp ← self.r32 (JBUF_SP + fc).toNat
  .ok (((((self.setReg 0 1).setReg FRAME_POINTER newFp).setReg SP newSp).setReg LR newPc).branch newPc)

/-- The first loop: the context whose personality has a handler, or what is returned instead. -/
def search : Nat → Word → Guest → Except Panic (Except Int Word × Guest)
  | 0, _, _ => .error .late
  | fuel + 1, fc, self =>
    if fc = 0 then .ok (.error urcEndOfStack, self)
    else do
      let personality ← self.r32 (fc + FC_PERSONALITY).toNat
      let (code, self) ← callPersonality routine exc personality uaSearchPhase fc self
      if code = urcHandlerFound then .ok (.ok fc, self)
      else if code ≠ urcContinueUnwind then .ok (.error urcFatalPhase1Error, self)
      else
        let prev ← self.r32 (fc + FC_PREV).toNat
        search fuel prev self

def cleanUp (handlerFc : Word) : Nat → Word → Guest → Except Panic (Int × Guest)
  | 0, _, _ => .error .late
  | fuel + 1, fc, self => do
    let personality ← self.r32 (fc + FC_PERSONALITY).toNat
    let actions := if fc = handlerFc then uaCleanupPhase ||| uaHandlerFrame else uaCleanupPhase
    let (code, self) ← callPersonality routine exc personality actions fc self
    if code = urcInstallContext then
      let self ← { self with head := fc }.installAndLongjmp fc
      .ok (0, self)
    else if code ≠ urcContinueUnwind ∨ fc = handlerFc then .ok (urcFatalPhase2Error, self)
    else
      let prev ← self.r32 (fc + FC_PREV).toNat
      cleanUp handlerFc fuel prev self

def raiseException (fuel : Nat) (self : Guest) : Except Panic (Int × Guest) := do
  let (handler, self) ← search routine exc fuel self.head self
  match handler with
  | .error code => .ok (code, self)
  | .ok handlerFc => cleanUp routine exc handlerFc fuel self.head self

inductive EntryPoint where
  | cxaThrow | raiseException | resume | resumeOrRethrow
deriving DecidableEq

variable (entry : EntryPoint) (fuel : Nat) (self : Guest)

/-- The exception that is raised, which `__cxa_throw` fills in. -/
def EntryPoint.exception : Except Panic (Word × Guest) :=
  match entry with
  | .cxaThrow => do
    let obj := self.regs 0
    let fields := [(0x40, self.regs 1), (0x3c, self.regs 2), (0x14, 0x43554e47), (0x10, 0x002b2b43), (0x0c, 0), (0x08, 0),
      (0x04, 0)]
    let self ← fields.foldlM (fun self (offset, value) => self.w32 (obj - offset) value) self
    .ok (obj - 0x14, self)
  | _ => .ok (self.regs 0, self)

def EntryPoint.raises : Except Panic (Int × Guest) := do
  let (exc, self) ← entry.exception self
  Guest.raiseException routine exc fuel self

def EntryPoint.run : Except Panic (Option Word × Guest) := do
  let (code, self) ← entry.raises routine fuel self
  match entry with
  | .cxaThrow => if code ≠ 0 then .error .uncaught else .ok (none, self)
  | .raiseException | .resumeOrRethrow => .ok (some (.ofInt 32 code), self)
  | .resume => .ok (none, self)

end Guest

open Guest

/-- The landing pad in the jump buffer of the chosen context, which is the head of the chain. -/
structure Lands (found t : Guest) : Prop where
  pc : t.regs PC = found.word (JBUF_PC + found.head).toNat &&& ~~~1
  thumb : t.thumb = (found.word (JBUF_PC + found.head).toNat).getLsbD 0
  sp : t.regs SP = found.word (JBUF_SP + found.head).toNat
  fp : t.regs FRAME_POINTER = found.word (JBUF_FP + found.head).toNat
  value : t.regs 0 = 1

def Landed (t : Guest) : Prop := Lands t t ∧ ∃ u : Guest, t = u.branch (u.regs LR)

variable {routine : Personality} {exc fc handlerFc : Word} {fuel : Nat} {g t found : Guest}

theorem r32_eq_ok {addr : Nat} {value : Word} (h : g.r32 addr = .ok value) : g.word addr = value := by
  unfold r32 at h
  split at h <;> cases h
  rfl

theorem installAndLongjmp_landed (h : { g with head := fc }.installAndLongjmp fc = .ok t) : Landed t := by
  obtain ⟨newFp, hfp, h⟩ := bind_eq_ok.mp h
  obtain ⟨newPc, hpc, h⟩ := bind_eq_ok.mp h
  obtain ⟨newSp, hsp, h⟩ := bind_eq_ok.mp h
  obtain rfl := r32_eq_ok hfp
  obtain rfl := r32_eq_ok hpc
  obtain rfl := r32_eq_ok hsp
  cases h
  exact ⟨⟨rfl, rfl, rfl, rfl, rfl⟩, _, rfl⟩

theorem search_error {code : Int} (h : search routine exc fuel fc g = .ok (.error code, t)) : code ≠ 0 := by
  induction fuel generalizing fc g with
  | zero => cases h
  | succ fuel ih =>
    unfold search at h
    split at h
    · cases h
      decide
    obtain ⟨personality, -, h⟩ := bind_eq_ok.mp h
    obtain ⟨⟨reason, u⟩, -, h⟩ := bind_eq_ok.mp h
    dsimp only at h
    split at h
    · cases h
    split at h
    · cases h
      decide
    obtain ⟨prev, -, h⟩ := bind_eq_ok.mp h
    exact ih h

theorem cleanUp_landed (h : cleanUp routine exc handlerFc fuel fc g = .ok (0, t)) : Landed t := by
  induction fuel generalizing fc g with
  | zero => cases h
  | succ fuel ih =>
    unfold cleanUp at h
    obtain ⟨personality, -, h⟩ := bind_eq_ok.mp h
    obtain ⟨⟨reason, u⟩, -, h⟩ := bind_eq_ok.mp h
    dsimp only at h
    split at h
    · obtain ⟨u, hins, h⟩ := bind_eq_ok.mp h
      cases h
      exact installAndLongjmp_landed hins
    split at h
    · cases h
    obtain ⟨prev, -, h⟩ := bind_eq_ok.mp h
    exact ih h

theorem raiseException_landed (h : raiseException routine exc fuel g = .ok (0, t)) : Landed t := by
  obtain ⟨⟨handler, u⟩, hsrc, h⟩ := bind_eq_ok.mp h
  cases handler with
  | error code =>
    cases h
    exact absurd rfl (search_error hsrc)
  | ok handlerFc => exact cleanUp_landed h

/-- The landing pad is entered with the value 1 exactly by the entry points without a value: the code that the others return
    replaces it. -/
theorem lands_iff (entry : EntryPoint) (h : entry.raises routine fuel g = .ok (0, found)) (retFlag : Bool) :
    ∃ t, callFromGuest (entry.run routine fuel) retFlag g = .ok t ∧ (Lands found t ↔ entry = .cxaThrow ∨ entry = .resume) := by
  obtain ⟨exc, -, hraise⟩ := bind_eq_ok.mp h
  obtain ⟨hlands, u, rfl⟩ := raiseException_landed hraise
  have hvoid : entry.run routine fuel g = .ok (none, u.branch (u.regs LR)) →
      callFromGuest (entry.run routine fuel) retFlag g = .ok (u.branch (u.regs LR)) := fun hrun => callFromGuest_of_branch hrun rfl
  have hvalue : entry.run routine fuel g = .ok (some 0, u.branch (u.regs LR)) →
      ∃ t, callFromGuest (entry.run routine fuel) retFlag g = .ok t ∧ ¬Lands (u.branch (u.regs LR)) t := fun hrun => by
    refine ⟨_, by rw [callFromGuest, hrun]; rfl, fun hlands => ?_⟩
    cases retFlag <;> exact absurd (show (0 : Word) = 1 from hlands.value) (by decide)
  cases entry with
  | cxaThrow | resume => exact ⟨_, hvoid (by simp [EntryPoint.run, h]), by simp [hlands]⟩
  | raiseException | resumeOrRethrow =>
    obtain ⟨t, hcall, hnot⟩ := hvalue (by simp [EntryPoint.run, h])
    exact ⟨t, hcall, by simp [hnot]⟩

def throwing : Guest where
  regs := fun _ => 0x300
  thumb := false
  mem := writeStruct (fun _ => 0) 0x100 [0, 0, 0, 0, 0, 0, 0x10, 0, 0x1111, 0x501, 0x2222]
  head := 0x100

def catches : Personality := fun _ actions _ _ _ self =>
  .ok (if actions = uaSearchPhase then urcHandlerFound else urcInstallContext, self)

theorem lands_iff_cxaThrow : ∃ found t, EntryPoint.cxaThrow.raises catches 2 throwing = .ok (0, found) ∧
    callFromGuest (EntryPoint.cxaThrow.run catches 2) true throwing = .ok t ∧ Lands found t := by
  obtain ⟨t, ht, hiff⟩ := lands_iff .cxaThrow (show EntryPoint.cxaThrow.raises catches 2 throwing = .ok (0, _) from rfl) true
  exact ⟨_, t, rfl, ht, hiff.mpr (.inl rfl)⟩

theorem lands_fails : ∃ found t, EntryPoint.raiseException.raises catches 2 throwing = .ok (0, found) ∧
    callFromGuest (EntryPoint.raiseException.run catches 2) false throwing = .ok t ∧ t.regs 0 = 0 ∧ ¬Lands found t :=
  ⟨_, _, rfl, rfl, rfl, fun h => absurd h.value (by decide)⟩

end TouchHLE.Libc.Jump
