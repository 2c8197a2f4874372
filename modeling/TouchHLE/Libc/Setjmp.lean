import TouchHLE.Abi

/-! `touchHLE/src/libc/setjmp.rs`, and the call of a function of the host by an SVC: `call_from_guest` in
    `touchHLE/src/abi.rs`, and what `handle_cpu_state` in `touchHLE/src/environment.rs` does after it. -/

namespace TouchHLE.Libc.Jump
open Lib Abi

def LR : Nat := 14
def PC : Nat := 15
def FRAME_POINTER : Nat := 7

inductive Panic where
  | sliceRange | acrossHostFrames | uncaught | late
deriving DecidableEq

structure Guest where
  regs : Nat → Word
  thumb : Bool
  mem : Nat → UInt8
  /-- `heads[current_thread]` of the unwinder, or zero -/
  head : Word

namespace Guest
variable (self : Guest)

def setReg (reg : Nat) (value : Word) : Guest := { self with regs := Function.update self.regs reg value }

def word (addr : Nat) : Word := wordAt self.mem addr

def r32 (addr : Nat) : Except Panic Word := if addr + 4 ≤ 2 ^ 32 then .ok (self.word addr) else .error .sliceRange

def branch (newPc : Word) : Guest := { self.setReg PC (newPc &&& ~~~1) with thumb := newPc.getLsbD 0 }

end Guest

/-- A function without a value leaves the registers alone. A stub of one instruction has no room for a return. -/
def callFromGuest (f : Guest → Except Panic (Option Word × Guest)) (retFlag : Bool) (self : Guest) : Except Panic Guest := do
  let (retval, self) ← f self
  let self := retval.elim self (self.setReg 0)
  .ok (if retFlag then self.branch (self.regs LR) else self)

/-- A jump to the address in the link register, by a function without a value, is not undone. -/
theorem callFromGuest_of_branch {f : Guest → Except Panic (Option Word × Guest)} {self t : Guest} {newPc : Word} {retFlag : Bool}
    (h : f self = .ok (none, t.branch newPc)) (hlr : t.regs LR = newPc) : callFromGuest f retFlag self = .ok (t.branch newPc) := by
  have hagn : (t.branch newPc).branch ((t.branch newPc).regs LR) = t.branch newPc := by
    simp [Guest.branch, Guest.setReg, PC, LR, Function.update_of_ne, ← hlr]
  rw [callFromGuest, h, ok_bind]
  simp [hagn]

def jmpBufRegs : List Nat := [4, 5, 6, FRAME_POINTER, 8, 10, 11, SP, LR]

def setjmp (jmpBuf : Word) (self : Guest) : Except Panic (Option Word × Guest) :=
  if jmpBuf.toNat + 36 ≤ 2 ^ 32 then
    .ok (some 0, { self with mem := writeStruct self.mem jmpBuf.toNat (jmpBufRegs.map self.regs) })
  else .error .sliceRange

def ALLOWED_FOR_LONGJMP_BYPASS : List String :=
  ["com.activision.CBNK2", "com.ea.fifa10.bv", "com.ea.fifa10inc", "com.ea.fifa10wc.bv", "com.ea.fifa10wc.inc"]

structure Host where
  bundleIdentifier : String
  /-- the first and the last address of the current thread's stack -/
  stack : Word × Word
  returnToHostRoutine : Word

def Host.IsFrame (host : Host) (lr fp : Word) : Prop :=
  (host.stack.1 ≤ fp ∧ fp ≤ host.stack.2) ∧ lr ≠ host.returnToHostRoutine

instance (host : Host) (lr fp : Word) : Decidable (host.IsFrame lr fp) := inferInstanceAs (Decidable (_ ∧ _))

def stackForLongjmp (host : Host) (self : Guest) : Nat → Word → Word → Except Panic (List Word)
  | 0, _, _ => .error .late
  | fuel + 1, lr, fp =>
    if host.IsFrame lr fp then do
      let lr' ← self.r32 (fp.toNat + 4)
      let fp' ← self.r32 fp.toNat
      let frames ← stackForLongjmp host self fuel lr' fp'
      .ok (lr :: frames)
    else .ok []

def Guest.restore (self : Guest) (buf : Nat → Word) (status : Word) : Guest := { self with
    regs := fun reg => if reg ∈ jmpBufRegs then buf reg else Function.update self.regs 0 status reg }.branch (buf LR)

def longjmp (host : Host) (fuel : Nat) (jmpBuf status : Word) (self : Guest) : Except Panic (Option Word × Guest) :=
  let buf := fun reg => self.word (jmpBuf.toNat + 4 * jmpBufRegs.idxOf reg)
  if 2 ^ 32 < jmpBuf.toNat + 36 then .error .sliceRange
  else do
    let curStack ← stackForLongjmp host self fuel (self.regs LR) (self.regs FRAME_POINTER)
    let otherStack ← stackForLongjmp host self fuel (buf LR) (buf FRAME_POINTER)
    if curStack.getLast? ≠ otherStack.getLast? ∧ host.bundleIdentifier ∉ ALLOWED_FOR_LONGJMP_BYPASS then
      .error .acrossHostFrames
    else
      .ok (none, self.restore buf status)

/-- From a frame to one of its callers, by way of the return addresses. -/
inductive Frames (host : Host) (g : Guest) : Word → Word → List Word → Word → Word → Prop where
  | refl (lr fp : Word) : Frames host g lr fp [] lr fp
  | caller {lr fp lr' fp' : Word} {frames : List Word} (frame : host.IsFrame lr fp) (fits : fp.toNat + 8 ≤ 2 ^ 32)
      (rest : Frames host g (g.word (fp.toNat + 4)) (g.word fp.toNat) frames lr' fp') :
      Frames host g lr fp (lr :: frames) lr' fp'

variable {host : Host} {g : Guest} {lr fp lr' fp' lr'' fp'' : Word} {frames inner outer : List Word} {fuel : Nat}

theorem Frames.trans (h : Frames host g lr fp inner lr' fp') (h' : Frames host g lr' fp' outer lr'' fp'') :
    Frames host g lr fp (inner ++ outer) lr'' fp'' := by
  induction h with
  | refl => exact h'
  | caller frame fits _ ih => exact .caller frame fits (ih h')

theorem Frames.stackForLongjmp_eq (h : Frames host g lr fp frames lr' fp') (hend : ¬host.IsFrame lr' fp')
    (hfl : frames.length < fuel) : stackForLongjmp host g fuel lr fp = .ok frames := by
  obtain ⟨fuel, rfl⟩ : ∃ n, fuel = n + 1 := ⟨fuel - 1, by omega⟩
  induction h generalizing fuel with
  | refl => exact if_neg hend
  | @caller lr fp _ _ frames frame fits _ ih =>
    obtain ⟨fuel, rfl⟩ : ∃ n, fuel = n + 1 := ⟨fuel - 1, by simp at hfl; omega⟩
    have hrs := ih hend fuel (by simpa using hfl)
    rw [stackForLongjmp, if_pos frame, Guest.r32, if_pos fits, ok_bind, Guest.r32, if_pos (by omega), ok_bind, hrs, ok_bind]

/-- The stack of a thread: the return addresses up to the frame with the pointer `fp`, the one into its function, and those
    of the functions that called it. -/
structure CallStack (host : Host) (g : Guest) (fp : Word) (inner : List Word) (lr : Word) (outer : List Word) : Prop where
  inner : Frames host g (g.regs LR) (g.regs FRAME_POINTER) inner lr fp
  outer : ∃ lr' fp', Frames host g lr fp (lr :: outer) lr' fp' ∧ ¬host.IsFrame lr' fp'

theorem CallStack.stacks (h : CallStack host g fp inner lr outer) {lr₀ : Word} (hlr : lr₀ ≠ host.returnToHostRoutine)
    (hfl : inner.length + outer.length + 1 < fuel) :
    stackForLongjmp host g fuel (g.regs LR) (g.regs FRAME_POINTER) = .ok (inner ++ lr :: outer) ∧
      stackForLongjmp host g fuel lr₀ fp = .ok (lr₀ :: outer) := by
  obtain ⟨lr', fp', hotr, hend⟩ := h.outer
  refine ⟨(h.inner.trans hotr).stackForLongjmp_eq hend (by simp; omega), ?_⟩
  cases hotr with
  | caller frame fits rest =>
    have hoth : Frames host g lr₀ fp (lr₀ :: outer) lr' fp' := .caller ⟨frame.1, hlr⟩ fits rest
    exact hoth.stackForLongjmp_eq hend (by simp; omega)

structure Resumes (s₀ : Guest) (status : Word) (t : Guest) : Prop where
  pc : t.regs PC = s₀.regs LR &&& ~~~1
  thumb : t.thumb = (s₀.regs LR).getLsbD 0
  saved : ∀ reg ∈ jmpBufRegs, t.regs reg = s₀.regs reg
  value : t.regs 0 = if status = 0 then 1 else status

variable {s₀ s₁ : Guest} {buf status : Word}

theorem restore_congr {buf buf' : Nat → Word} (h : ∀ reg ∈ jmpBufRegs, buf reg = buf' reg) :
    g.restore buf status = g.restore buf' status := by
  have hrgs : (fun reg => if reg ∈ jmpBufRegs then buf reg else Function.update g.regs 0 status reg) =
      fun reg => if reg ∈ jmpBufRegs then buf' reg else Function.update g.regs 0 status reg := by
    funext reg
    split
    · exact h reg ‹_›
    · rfl
  rw [Guest.restore, Guest.restore, hrgs, h LR (by decide)]

theorem restore_resumes_iff : Resumes s₀ status (g.restore s₀.regs status) ↔ status ≠ 0 := by
  have hzr : (g.restore s₀.regs status).regs 0 = status := rfl
  constructor
  · rintro h rfl
    exact absurd (hzr.symm.trans h.value) (by decide)
  · intro h
    refine ⟨rfl, rfl, fun reg hreg => ?_, by rw [hzr, if_neg h]⟩
    have hne : reg ≠ PC := fun heq => absurd (heq ▸ hreg) (by decide)
    exact (Function.update_of_ne hne ..).trans (if_pos hreg)

section
variable (hset : setjmp buf s₀ = .ok (some 0, s₁)) (hbuf : ∀ x, buf.toNat ≤ x → x < buf.toNat + 36 → g.mem x = s₁.mem x)
include hset hbuf

theorem buf_of_setjmp : buf.toNat + 36 ≤ 2 ^ 32 ∧
    ∀ reg ∈ jmpBufRegs, g.word (buf.toNat + 4 * jmpBufRegs.idxOf reg) = s₀.regs reg := by
  unfold setjmp at hset
  split at hset
  case isFalse => cases hset
  case isTrue hft =>
    cases hset
    refine ⟨hft, fun reg hreg => ?_⟩
    have hi := List.idxOf_lt_length_of_mem hreg
    have hwrd : g.word (buf.toNat + 4 * jmpBufRegs.idxOf reg) = (jmpBufRegs.map s₀.regs).getD (jmpBufRegs.idxOf reg) 0 :=
      wordAt_struct (by simpa using hi) hbuf
    rw [hwrd]
    simp [hi]

theorem longjmp_eq (status : Word) (hgst : s₀.regs LR ≠ host.returnToHostRoutine)
    (hstc : CallStack host g (s₀.regs FRAME_POINTER) inner lr outer) (hfl : inner.length + outer.length + 1 < fuel) :
    longjmp host fuel buf status g =
      if host.bundleIdentifier ∈ ALLOWED_FOR_LONGJMP_BYPASS ∨ outer ≠ [] ∨ lr = s₀.regs LR then
        .ok (none, g.restore s₀.regs status)
      else .error .acrossHostFrames := by
  obtain ⟨hft, hfld⟩ := buf_of_setjmp hset hbuf
  obtain ⟨hcur, hoth⟩ := hstc.stacks hgst hfl
  have hlst : (inner ++ lr :: outer).getLast? = (s₀.regs LR :: outer).getLast? ↔ outer ≠ [] ∨ lr = s₀.regs LR := by
    cases outer <;> simp [List.getLast?_cons]
  unfold longjmp
  simp only [if_neg (Nat.not_lt.mpr hft), hcur, hfld LR (by decide), hfld FRAME_POINTER (by decide), ok_bind, hoth,
    restore_congr hfld, ne_eq, hlst]
  split <;> split <;> grind

end

/-- The jump resumes the second return unless the value is zero, or the emulator takes the frame for one of the host: it tells
    the stacks apart by return addresses into the function that the host has called, where `setjmp` may have been called. -/
theorem longjmp_resumes_iff (hset : setjmp buf s₀ = .ok (some 0, s₁)) (hguest : s₀.regs LR ≠ host.returnToHostRoutine)
    (hbuf : ∀ x, buf.toNat ≤ x → x < buf.toNat + 36 → g.mem x = s₁.mem x) (hargs : g.regs 0 = buf ∧ g.regs 1 = status)
    (hstack : CallStack host g (s₀.regs FRAME_POINTER) inner lr outer) (hfuel : inner.length + outer.length + 1 < fuel)
    (retFlag : Bool) :
    (∃ t, callFromGuest (fun g => longjmp host fuel (g.regs 0) (g.regs 1) g) retFlag g = .ok t ∧ Resumes s₀ status t) ↔
      status ≠ 0 ∧ (host.bundleIdentifier ∈ ALLOWED_FOR_LONGJMP_BYPASS ∨ outer ≠ [] ∨ lr = s₀.regs LR) := by
  have hlong := longjmp_eq hset hbuf status hguest hstack hfuel
  rw [← hargs.1, ← hargs.2] at hlong
  by_cases hsame : host.bundleIdentifier ∈ ALLOWED_FOR_LONGJMP_BYPASS ∨ outer ≠ [] ∨ lr = s₀.regs LR
  · rw [if_pos hsame] at hlong
    rw [callFromGuest_of_branch (f := fun g => longjmp host fuel (g.regs 0) (g.regs 1) g) hlong rfl]
    simp only [Except.ok.injEq, exists_eq_left', and_iff_left hsame]
    exact hargs.2 ▸ restore_resumes_iff
  · rw [if_neg hsame] at hlong
    simp [callFromGuest, hlong, hsame]

def app : Host := ⟨"", (0x1000, 0x1fff), 0x2000⟩

/-- The host has called the function with the frame at 0x1020, and that one the function with the frame at 0x1010. -/
def guestAt (fp lr status : Word) : Guest where
  regs := fun reg => [0x3000, status, 0, 0, 0, 0, 0, fp, 0, 0, 0, 0, 0, 0x1000, lr].getD reg 0
  thumb := false
  mem := writeStruct (fun _ => 0) 0x1010 [0x1020, 0x601, 0, 0, 0, 0x2000]
  head := 0

def jumpingAt (fp status : Word) : Guest := { guestAt fp 0x511 status with
    mem := writeStruct (guestAt fp 0x501 0).mem 0x3000 (jmpBufRegs.map (guestAt fp 0x501 0).regs) }

def jumped (fp status : Word) : Except Panic Guest :=
  callFromGuest (fun g => longjmp app 9 (g.regs 0) (g.regs 1) g) false (jumpingAt fp status)

theorem longjmp_resumes_five : ∃ t, jumped 0x1010 5 = .ok t ∧ Resumes (guestAt 0x1010 0x501 0) 5 t := by
  have hset : setjmp 0x3000 (guestAt 0x1010 0x501 0) = .ok (some 0, _) := rfl
  have hstack : CallStack app (jumpingAt 0x1010 5) ((guestAt 0x1010 0x501 0).regs FRAME_POINTER) [] 0x511 [0x601] :=
    ⟨.refl .., 0x2000, 0, .caller (by decide) (by decide) (.caller (by decide) (by decide) (.refl ..)), by decide⟩
  exact (longjmp_resumes_iff (g := jumpingAt 0x1010 5) hset (by decide) (fun _ _ _ => rfl) ⟨rfl, rfl⟩ hstack (by decide) false).mpr (by decide)

/-- The value zero is returned as it is, and a jump in the function that the host has called is taken for one out of it. -/
theorem longjmp_resumes_fails : (∃ t, jumped 0x1010 0 = .ok t ∧ t.regs 0 = 0 ∧ ¬Resumes (guestAt 0x1010 0x501 0) 0 t) ∧
    jumped 0x1020 5 = .error .acrossHostFrames :=
  ⟨⟨_, rfl, rfl, fun h => absurd h.value (by decide)⟩, rfl⟩

end TouchHLE.Libc.Jump
