import TouchHLE.Abi

/-! The calling convention: the words of the arguments lie one after the other, the first four in registers. A call from the
    host keeps them apart from the value that is returned in memory only if none of them needs the stack. -/

namespace TouchHLE.Abi
open Lib List
variable {args : List Arg}

variable {m m' m'' : Machine} {sp off : Nat} {ws ws' : List Word}

theorem length_toRegs (t : ArgType) (value : t.Value) : (t.guestArg.toRegs value).length = t.regCount := by
  cases t <;> rfl

theorem regCount_le (t : ArgType) : t.regCount ≤ 2 := by
  cases t <;> decide

theorem setWidth_signExtend {w : Nat} (value : BitVec w) (h : w ≤ 32) : (value.signExtend 32).setWidth w = value := by
  ext i hi
  have hi' : i < 32 := by omega
  simp [BitVec.getElem_signExtend, hi, hi']

theorem setWidth_setWidth {w : Nat} (value : BitVec w) (h : w ≤ 32) : (value.setWidth 32).setWidth w = value := by
  rw [BitVec.setWidth_setWidth_of_le value h, BitVec.setWidth_eq]

theorem fromRegs_toRegs (t : ArgType) (value : t.Value) : t.guestArg.fromRegs (t.guestArg.toRegs value) = value := by
  have h64 : ∀ value : BitVec 64, value.extractLsb' 32 32 ++ value.extractLsb' 0 32 = value := by
    intro value
    ext i hi
    rw [BitVec.getElem_append]
    split
    · simp [BitVec.getLsbD_eq_getElem hi]
    · have : 32 + (i - 32) = i := by omega
      simp [this, BitVec.getLsbD_eq_getElem hi]
  cases t with
  | u16 | u8 => exact setWidth_setWidth value (by decide)
  | i16 | i8 => exact setWidth_signExtend value (by decide)
  | bool =>
    cases value
    · rfl
    · rfl
  | u64 | i64 | f64 => exact h64 value
  | _ => rfl

/-! ### Where the words are -/

def slot (sp off : Nat) : Nat := sp + 4 * (off - 4)

def Holds (m : Machine) (sp off : Nat) (ws : List Word) : Prop :=
  ∀ i (h : i < ws.length), readWord m sp (off + i) = .ok ws[i]

theorem Holds.append (h : Holds m sp off ws) (h' : Holds m sp (off + ws.length) ws') : Holds m sp off (ws ++ ws') := by
  intro i hi
  by_cases hlt : i < ws.length
  · rw [getElem_append_left hlt]
    exact h i hlt
  · have hi' : i - ws.length < ws'.length := by
      rw [length_append] at hi
      omega
    have := h' (i - ws.length) hi'
    rw [getElem_append_right (Nat.le_of_not_lt hlt), ← this]
    congr 1
    omega

theorem Holds.left (h : Holds m sp off (ws ++ ws')) : Holds m sp off ws := by
  intro i hi
  have := h i (by rw [length_append]; omega)
  rwa [getElem_append_left hi] at this

theorem Holds.right (h : Holds m sp off (ws ++ ws')) : Holds m sp (off + ws.length) ws' := by
  intro i hi
  have := h (ws.length + i) (by rw [length_append]; omega)
  simpa [Nat.add_assoc] using this

theorem readWord_congr (hreg : off < 4 → m'.regs off = m.regs off)
    (hmem : 4 ≤ off → ∀ x, slot sp off ≤ x → x < slot sp off + 4 → m'.mem x = m.mem x) :
    readWord m' sp off = readWord m sp off := by
  unfold readWord
  split
  · rename_i h
    rw [hreg h]
  · rename_i h
    have := Environment.readLe_congr 4 (slot sp off) (hmem (Nat.le_of_not_lt h))
    unfold ptrAdd
    split
    · unfold Machine.read
      simp only [ok_bind]
      rw [show sp + 4 * (off - 4) = slot sp off from rfl, this]
    · rfl

structure Laid (m : Machine) (off : Nat) (ws : List Word) (m' : Machine) : Prop where
  words : Holds m' m.sp off ws
  regs : ∀ r, r < off ∨ off + ws.length ≤ r ∨ 4 ≤ r → m'.regs r = m.regs r
  mem : ∀ x, x < slot m.sp off ∨ slot m.sp (off + ws.length) ≤ x → m'.mem x = m.mem x
  writes : m'.writes = m.writes ++ ((List.range' off ws.length).filter (4 ≤ ·)).map (slot m.sp)

theorem Laid.regs_sp (h : Laid m off ws m') : m'.regs SP = m.regs SP := h.regs SP (.inr (.inr (by decide)))

theorem Laid.sp_eq (h : Laid m off ws m') : m'.sp = m.sp := congrArg BitVec.toNat h.regs_sp

theorem Laid.nil (m : Machine) (off : Nat) : Laid m off [] m where
  words := by
    intro i hi
    cases hi
  regs := fun _ _ => rfl
  mem := fun _ _ => rfl
  writes := (append_nil _).symm

theorem Laid.append (h : Laid m off ws m') (h' : Laid m' (off + ws.length) ws' m'') : Laid m off (ws ++ ws') m'' where
  words := by
    have hsp := h.sp_eq
    refine .append ?_ (hsp ▸ h'.words)
    intro i hi
    rw [← h.words i hi]
    refine readWord_congr (fun _ => h'.regs _ (.inl (by omega))) (fun hoff x _ hx => h'.mem x (.inl ?_))
    unfold slot at hx ⊢
    omega
  regs := by
    intro r hr
    rw [length_append] at hr
    rw [h'.regs r (by omega), h.regs r (by omega)]
  mem := by
    intro x hx
    rw [length_append] at hx
    have hle : slot m.sp off ≤ slot m.sp (off + ws.length) := by
      unfold slot
      omega
    have hle' : slot m.sp (off + ws.length) ≤ slot m.sp (off + (ws.length + ws'.length)) := by
      unfold slot
      omega
    rw [h'.mem x (by rw [h.sp_eq, Nat.add_assoc]; omega), h.mem x (by omega)]
  writes := by
    rw [h'.writes, h.writes, h.sp_eq, length_append, ← range'_append_1, filter_append, map_append, append_assoc]

theorem write_spec {ptr : Nat} {word} (h : m.write ptr word = .ok m') :
    m'.read ptr = .ok word ∧ m'.regs = m.regs ∧ (∀ x, x < ptr ∨ ptr + 4 ≤ x → m'.mem x = m.mem x) ∧
      m'.writes = m.writes ++ [ptr] := by
  unfold Machine.write at h
  split at h
  · rename_i hend
    cases h
    have hlt : word.toNat < 256 ^ 4 := word.isLt
    have hrd := Environment.readLe_written m.mem ptr 4 word.toNat 4 0 (Nat.le_refl 4)
    rw [Nat.pow_zero, Nat.div_one, Nat.mod_eq_of_lt hlt, Nat.add_zero ptr] at hrd
    refine ⟨?_, rfl, ?_, rfl⟩
    · unfold Machine.read
      rw [if_pos hend, hrd, BitVec.ofNat_toNat, BitVec.setWidth_eq]
    · intro x hx
      exact if_neg (by omega)
  · cases h

theorem writeWord_laid {word} (h : writeWord m off word = .ok m') : Laid m off [word] m' := by
  unfold writeWord at h
  split at h
  · rename_i hoff
    cases h
    refine ⟨?_, ?_, fun x _ => rfl, ?_⟩
    · intro i hi
      obtain rfl : i = 0 := by simpa using hi
      simp [readWord, hoff]
    · intro r hr
      have : r ≠ off := by
        rw [length_singleton] at hr
        omega
      exact Machine.setReg_of_ne m word this
    · simp [Machine.setReg, hoff]
  · rename_i hoff
    have hoff' : 4 ≤ off := Nat.le_of_not_lt hoff
    obtain ⟨ptr, hptr, h⟩ := bind_eq_ok.mp h
    obtain rfl : slot m.sp off = ptr := by
      unfold ptrAdd at hptr
      split at hptr
      · cases hptr
        rfl
      · cases hptr
    obtain ⟨hrd, hrg, hmem, hwrt⟩ := write_spec h
    refine ⟨?_, fun r _ => congrFun hrg r, ?_, ?_⟩
    · intro i hi
      obtain rfl : i = 0 := by simpa using hi
      rw [readWord, Nat.add_zero, if_neg hoff, hptr, ok_bind, hrd]
      rfl
    · intro x hx
      refine hmem x ?_
      unfold slot at hx ⊢
      rw [length_singleton] at hx
      omega
    · simp [hwrt, hoff']

theorem writeWords_laid : ∀ (ws : List Word) {off : Nat} {m : Machine} {r : Nat × Machine}, writeWords ws off m = .ok r →
      r.1 = off + ws.length ∧ Laid m off ws r.2 := by
  intro ws
  induction ws with
  | nil =>
    intro off m r h
    cases h
    exact ⟨rfl, .nil m off⟩
  | cons w ws ih =>
    intro off m r h
    obtain ⟨m₁, hfs, hrs⟩ := bind_eq_ok.mp h
    obtain ⟨hoff, hld⟩ := ih hrs
    refine ⟨?_, (writeWord_laid hfs).append hld⟩
    rw [hoff, length_cons]
    omega

theorem writeWord_ok (word : Word) (room : slot m.sp (off + 1) ≤ 2 ^ 32) : ∃ m', writeWord m off word = .ok m' := by
  unfold writeWord
  unfold slot at room
  split
  · exact ⟨_, rfl⟩
  · have hbn : m.sp + 4 * (off - 4) < 2 ^ 32 := by omega
    have hend : m.sp + 4 * (off - 4) + 4 ≤ 2 ^ 32 := by omega
    rw [ptrAdd, if_pos hbn, ok_bind, Machine.write, if_pos hend]
    exact ⟨_, rfl⟩

theorem writeWords_ok : ∀ (ws : List Word) {off : Nat} {m : Machine}, slot m.sp (off + ws.length) ≤ 2 ^ 32 →
    ∃ r, writeWords ws off m = .ok r := by
  intro ws
  induction ws with
  | nil =>
    intro off m _
    exact ⟨_, rfl⟩
  | cons w ws ih =>
    intro off m room
    have hle : slot m.sp (off + 1) ≤ slot m.sp (off + (w :: ws).length) := by
      unfold slot
      rw [length_cons]
      omega
    obtain ⟨m₁, hfs⟩ := writeWord_ok w (Nat.le_trans hle room)
    rw [writeWords, hfs, ok_bind]
    apply ih
    rw [(writeWord_laid hfs).sp_eq]
    rwa [length_cons, Nat.add_comm ws.length, ← Nat.add_assoc] at room

theorem readWords_of_holds : ∀ (ws : List Word) {off : Nat}, Holds m sp off ws →
    readWords m sp ws.length off = .ok (ws, off + ws.length) := by
  intro ws
  induction ws with
  | nil =>
    intro off _
    rfl
  | cons w ws ih =>
    intro off h
    have hfs := h 0 (Nat.zero_lt_succ _)
    have hrs : Holds m sp (off + 1) ws := .right (show Holds m sp off ([w] ++ ws) from h)
    rw [length_cons, readWords]
    simp only [Nat.add_zero] at hfs
    rw [hfs, ok_bind, ih hrs, ok_bind, getElem_cons_zero, Nat.add_assoc, Nat.add_comm 1]

def words (args : List Arg) : List Word := args.flatMap fun arg => arg.type.guestArg.toRegs arg.value

def types (args : List Arg) : List ArgType := args.map Arg.type

theorem length_words (args : List Arg) : (words args).length = regCountSum args := by
  simp [words, regCountSum, length_flatMap, length_toRegs]

theorem words_cons (arg : Arg) (args : List Arg) :
    words (arg :: args) = arg.type.guestArg.toRegs arg.value ++ words args := rfl

theorem words_append (args args' : List Arg) : words (args ++ args') = words args ++ words args' := flatMap_append

theorem writeWords_append : ∀ ws ws' off m, writeWords (ws ++ ws') off m = (do
      let (off, m) ← writeWords ws off m
      writeWords ws' off m) := by
  intro ws ws'
  induction ws with
  | nil =>
    intro off m
    rfl
  | cons w ws ih =>
    intro off m
    rw [cons_append, writeWords, writeWords]
    cases writeWord m off w with
    | error e => rfl
    | ok m₁ => exact ih (off + 1) m₁

theorem writeNextArg_eq (arg : Arg) (off : Nat) (m : Machine) :
    writeNextArg arg off m = writeWords (arg.type.guestArg.toRegs arg.value) off m := by
  have := regCount_le arg.type
  exact if_neg (by omega)

theorem writeArgs_eq : ∀ args off m,
    writeArgs args off m = writeWords (words args) off m := by
  intro args
  induction args with
  | nil =>
    intro off m
    rfl
  | cons arg args ih =>
    intro off m
    rw [words_cons, writeWords_append, writeArgs, writeNextArg_eq]
    simp [ih]

theorem readNextArg_of_holds (arg : Arg) (h : Holds m sp off (arg.type.guestArg.toRegs arg.value)) :
    readNextArg arg.type m sp off = .ok (arg.value, off + arg.type.regCount) := by
  have hwrd := readWords_of_holds _ h
  have hcn := regCount_le arg.type
  rw [length_toRegs] at hwrd
  rw [readNextArg, if_neg (by omega), hwrd, ok_bind]
  simp [fromRegs_toRegs]

theorem readArgs_of_holds : ∀ (args : List Arg) {off : Nat}, Holds m sp off (words args) →
    readArgs m sp (types args) off = .ok (args, off + regCountSum args) := by
  intro args
  induction args with
  | nil =>
    intro off _
    rfl
  | cons arg args ih =>
    intro off h
    have hrs := ih (length_toRegs arg.type arg.value ▸ h.right)
    have htyp : types (arg :: args) = arg.type :: types args := rfl
    have hsum : regCountSum (arg :: args) = arg.type.regCount + regCountSum args := rfl
    rw [htyp, hsum, readArgs, readNextArg_of_holds arg h.left, ok_bind]
    simp [hrs, Nat.add_assoc]

theorem nexts_eq : ∀ (types : List ArgType) (va : VaList), va.nexts m types = (do
    let (args, regOffset) ← readArgs m va.stackPointer types va.regOffset
    .ok (args, ⟨regOffset, va.stackPointer⟩)) := by
  intro types
  induction types with
  | nil =>
    intro va
    rfl
  | cons t types ih =>
    intro va
    rw [VaList.nexts, readArgs, VaList.next]
    cases readNextArg t m va.stackPointer va.regOffset with
    | error e => rfl
    | ok r =>
      simp only [ok_bind, ih]
      cases readArgs m va.stackPointer types r.2 with
      | error e => rfl
      | ok r' => rfl

/-! ### The round trip -/

theorem extendStackForArgs_eq (count : Nat) (room : 4 * (count - 4) ≤ m.sp) :
    ∃ m', extendStackForArgs count m = .ok (m.regs SP, m') ∧ m'.sp = m.sp - 4 * (count - 4) ∧ m'.mem = m.mem ∧
      m'.writes = m.writes ∧ ∀ r, r ≠ SP → m'.regs r = m.regs r := by
  unfold extendStackForArgs
  by_cases hcn : count > 4
  · have hlt : m.sp - 4 * (count - 4) < 2 ^ 32 := Nat.lt_of_le_of_lt (Nat.sub_le ..) (m.regs SP).isLt
    rw [if_pos hcn, if_pos room]
    refine ⟨_, rfl, ?_, rfl, rfl, ?_⟩
    · rw [Machine.sp, Machine.setReg_self, BitVec.toNat_ofNat, Nat.mod_eq_of_lt hlt]
    · intro r hr
      exact Machine.setReg_of_ne m _ hr
  · rw [if_neg hcn]
    refine ⟨m, rfl, ?_, rfl, rfl, fun _ _ => rfl⟩
    omega

theorem extendStackForArgs_room {count : Nat} {r} (h : extendStackForArgs count m = .ok r) :
    4 * (count - 4) ≤ m.sp := by
  unfold extendStackForArgs at h
  by_cases hcn : count > 4
  · by_cases room : 4 * (count - 4) ≤ m.sp
    · exact room
    · rw [if_pos hcn, if_neg room] at h
      cases h
  · omega

/-- The state after the arguments were written is the one before, but for r0 to r3, the stack pointer and the words
    between the new and the old stack pointer. -/
def OnlyArgs (m m' : Machine) : Prop :=
  (∀ r, 4 ≤ r → r ≠ SP → m'.regs r = m.regs r) ∧ ∀ x, x < m'.sp ∨ m.sp ≤ x → m'.mem x = m.mem x

theorem regCountSum_append (args args' : List Arg) : regCountSum (args ++ args') = regCountSum args + regCountSum args' := by
  simp [regCountSum]

/-- A function finds its fixed arguments, and its list of variable arguments goes on at the next word. -/
theorem reads_of_holds {fixed tail} (h : Holds m sp off (words (fixed ++ tail))) :
    readArgs m sp (types fixed) off = .ok (fixed, off + regCountSum fixed) ∧
      VaList.nexts m (types tail) ⟨off + regCountSum fixed, sp⟩ = .ok (tail, ⟨off + regCountSum (fixed ++ tail), sp⟩) := by
  rw [words_append] at h
  have htl := h.right
  rw [length_words] at htl
  refine ⟨readArgs_of_holds fixed h.left, ?_⟩
  rw [nexts_eq, readArgs_of_holds tail htl, regCountSum_append, ← Nat.add_assoc]
  rfl

/-- Arguments that are written are read back, and only they are written: however the function called splits them into
    fixed and variable arguments, and whether or not it takes a pointer to its return value first, it finds the fixed
    ones, and its list of variable arguments is at the next word. -/
theorem args_round_trip (m : Machine) (args : List Arg) (room : 4 * (regCountSum args - 4) ≤ m.sp) :
    ∃ oldSp ext m', extendStackForArgs (regCountSum args) m = .ok (oldSp, ext) ∧
      writeArgs args 0 ext = .ok (regCountSum args, m') ∧
      readArgs m' m'.sp (types args) 0 = .ok (args, regCountSum args) ∧
      (∀ fixed tail, args = fixed ++ tail →
        readCall false (types fixed) m' = .ok (none, fixed, ⟨regCountSum fixed, m'.sp⟩) ∧
        VaList.nexts m' (types tail) ⟨regCountSum fixed, m'.sp⟩ = .ok (tail, ⟨regCountSum args, m'.sp⟩)) ∧
      (∀ ptr fixed tail, args = ⟨.ptr, ptr⟩ :: (fixed ++ tail) →
        readCall true (types fixed) m' = .ok (some ptr, fixed, ⟨1 + regCountSum fixed, m'.sp⟩) ∧
        VaList.nexts m' (types tail) ⟨1 + regCountSum fixed, m'.sp⟩ = .ok (tail, ⟨regCountSum args, m'.sp⟩)) ∧
      OnlyArgs m m' ∧
      (m'.setReg SP oldSp).regs SP = m.regs SP := by
  obtain ⟨ext, hext, hsp, hmem, -, hregs⟩ := extendStackForArgs_eq (regCountSum args) room
  -- the arguments end where the stack was before
  have hend : slot ext.sp (regCountSum args) = m.sp := by
    unfold slot
    omega
  have hroom : slot ext.sp (0 + (words args).length) ≤ 2 ^ 32 := by
    rw [length_words, Nat.zero_add, hend]
    exact Nat.le_of_lt (m.regs SP).isLt
  obtain ⟨r, hwrite⟩ := writeWords_ok (words args) hroom
  obtain ⟨hcount, hlaid⟩ := writeWords_laid _ hwrite
  rw [length_words, Nat.zero_add] at hcount
  have hholds : Holds r.2 r.2.sp 0 (words args) := hlaid.sp_eq ▸ hlaid.words
  refine ⟨m.regs SP, ext, r.2, hext, ?_, ?_, ?_, ?_, ⟨?_, ?_⟩, ?_⟩
  · rw [writeArgs_eq, hwrite, ← hcount]
  · rw [readArgs_of_holds args hholds, Nat.zero_add]
  · intro fixed tail hsplit
    subst hsplit
    have hreads := reads_of_holds hholds
    rw [Nat.zero_add, Nat.zero_add] at hreads
    refine ⟨?_, hreads.2⟩
    simp [readCall, hreads.1]
  · intro ptr fixed tail hsplit
    subst hsplit
    have hptr : readNextArg .ptr r.2 r.2.sp 0 = .ok (ptr, 1) := readNextArg_of_holds ⟨.ptr, ptr⟩ hholds.left
    have hrest : Holds r.2 r.2.sp 1 (words (fixed ++ tail)) := hholds.right
    have hreads := reads_of_holds hrest
    refine ⟨?_, hreads.2⟩
    simp [readCall, hptr, hreads.1]
  · intro i hi hne
    rw [hlaid.regs i (.inr (.inr hi)), hregs i hne]
  · intro x hx
    rw [← hmem]
    refine hlaid.mem x ?_
    rwa [length_words, Nat.zero_add, hend, slot, ← hlaid.sp_eq]
  · exact Machine.setReg_self ..

/-- Six words, of which one argument is split between r3 and the stack and one is variable. -/
def sampleArgs : List Arg :=
  [⟨.u8, (200 : BitVec 8)⟩, ⟨.i16, (-3 : BitVec 16)⟩, ⟨.bool, true⟩, ⟨.u64, (0x123456789 : BitVec 64)⟩, ⟨.f32, (7 : BitVec 32)⟩]

def sampleMachine : Machine := ⟨fun _ => 0x1000, fun _ => 0, []⟩

theorem args_round_trip_split : 4 * (regCountSum sampleArgs - 4) ≤ sampleMachine.sp ∧
      ∃ oldSp ext m', extendStackForArgs (regCountSum sampleArgs) sampleMachine = .ok (oldSp, ext) ∧
        writeArgs sampleArgs 0 ext = .ok (6, m') ∧ readArgs m' m'.sp (types sampleArgs) 0 = .ok (sampleArgs, 6) := by
  have room : 4 * (regCountSum sampleArgs - 4) ≤ sampleMachine.sp := by decide
  obtain ⟨oldSp, ext, m', hext, hwrite, hread, -⟩ := args_round_trip sampleMachine sampleArgs room
  exact ⟨room, oldSp, ext, m', hext, hwrite, hread⟩

/-! ### Calls from the host -/

/-- The value that is returned in memory lies below the stack pointer, and no argument word is written into it or at or
    above the stack pointer. -/
def Apart (m : Machine) (size : Word) (frame : Frame) : Prop :=
  ∃ ptr new, frame.retvalPtr = some ptr ∧ ptr.toNat + size.toNat ≤ m.sp ∧ frame.machine.writes = m.writes ++ new ∧
    ∀ p ∈ new, ∀ x, p ≤ x → x < p + 4 → ¬(ptr.toNat ≤ x ∧ x < ptr.toNat + size.toNat) ∧ x < m.sp

theorem setUpCall_eq (m : Machine) (size : Word) (args : List Arg) :
    ∃ m₁, m₁.regs SP = m.regs SP - size ∧ m₁.writes = m.writes ∧ setUpCall (some size) args m = (do
      let (oldSp, m₂) ← extendStackForArgs (regCountSum args) m₁
      let (_, m₃) ← writeWords (words args) 1 m₂
      .ok ⟨m₃, oldSp, some (m.regs SP - size)⟩) := by
  refine ⟨(m.setReg SP (m.regs SP - size)).setReg 0 (m.regs SP - size), ?_, rfl, ?_⟩
  · rw [Machine.setReg_of_ne _ _ (by decide), Machine.setReg_self]
  · simp only [setUpCall, writeArgs_eq]
    rfl

/-- Where a call puts the words of its arguments: they go on after the pointer, which took r0. -/
theorem setUpCall_writes {size} {frame} (h : setUpCall (some size) args m = .ok frame) :
    frame.retvalPtr = some (m.regs SP - size) ∧ frame.oldSp = m.regs SP - size ∧
      4 * (regCountSum args - 4) ≤ (m.regs SP - size).toNat ∧
      frame.machine.writes = m.writes ++ ((List.range' 1 (regCountSum args)).filter (4 ≤ ·)).map
        (slot ((m.regs SP - size).toNat - 4 * (regCountSum args - 4))) := by
  obtain ⟨m₁, hsp, hwrt, heq⟩ := setUpCall_eq m size args
  rw [heq] at h
  obtain ⟨r, hext, h⟩ := bind_eq_ok.mp h
  obtain ⟨r', hwi, h⟩ := bind_eq_ok.mp h
  cases h
  have room := extendStackForArgs_room hext
  obtain ⟨ext, hext', hets, -, hexw, -⟩ := extendStackForArgs_eq (regCountSum args) room
  obtain rfl : (m₁.regs SP, ext) = r := Except.ok.inj (hext'.symm.trans hext)
  have hld := (writeWords_laid _ hwi).2
  have hm₁ : m₁.sp = (m.regs SP - size).toNat := congrArg BitVec.toNat hsp
  rw [hm₁] at room hets
  refine ⟨rfl, hsp, room, ?_⟩
  rw [hld.writes, hexw, hwrt, hets, length_words]

theorem setUpCall_ok (m : Machine) (size : Word) (h : regCountSum args ≤ 3) :
    ∃ frame, setUpCall (some size) args m = .ok frame := by
  obtain ⟨m₁, -, -, heq⟩ := setUpCall_eq m size args
  have hext : extendStackForArgs (regCountSum args) m₁ = .ok (m₁.regs SP, m₁) := if_neg (by omega)
  have hrm : slot m₁.sp (1 + (words args).length) ≤ 2 ^ 32 := by
    rw [length_words, slot, Machine.sp]
    omega
  obtain ⟨r, hwi⟩ := writeWords_ok (words args) hrm
  rw [heq, hext, ok_bind]
  simp only [hwi, ok_bind]
  exact ⟨_, rfl⟩

theorem callFromHost_sp {size} {callFromGuest} {final}
    (h : callFromHost (some size) callFromGuest args m = .ok final) : final.regs SP = m.regs SP := by
  obtain ⟨frame, hfm, h⟩ := bind_eq_ok.mp h
  obtain ⟨m₁, -, h⟩ := bind_eq_ok.mp h
  cases h
  rw [Machine.setReg_self, (setUpCall_writes hfm).2.1, BitVec.sub_add_cancel]

/-- A call keeps its arguments apart from the value that is returned in memory exactly if they fit in r1 to r3: the
    words on the stack are one more than the stack was extended for, and the last one is at the returned value. -/
theorem callFromHost_apart_iff (m : Machine) (size : Word) (args : List Arg) (room : size.toNat ≤ m.sp) :
    ((∃ frame, setUpCall (some size) args m = .ok frame ∧ Apart m size frame) ∧
      ∀ callFromGuest final, callFromHost (some size) callFromGuest args m = .ok final → final.regs SP = m.regs SP) ↔
    regCountSum args ≤ 3 := by
  have hptr : (m.regs SP - size).toNat + size.toNat = m.sp := by
    rw [BitVec.toNat_sub_of_le room]
    exact Nat.sub_add_cancel room
  constructor
  · rintro ⟨⟨frame, hframe, ptr, new, hret, -, hnew, hapart⟩, -⟩
    obtain ⟨hret', -, hroom, hwrites⟩ := setUpCall_writes hframe
    obtain rfl : m.regs SP - size = ptr := Option.some.inj (hret'.symm.trans hret)
    obtain rfl := append_cancel_left (hwrites.symm.trans hnew)
    refine Nat.le_of_not_lt fun hmany => ?_
    -- the last word
    have hlast : (m.regs SP - size).toNat ∈ ((List.range' 1 (regCountSum args)).filter (4 ≤ ·)).map
        (slot ((m.regs SP - size).toNat - 4 * (regCountSum args - 4))) := by
      refine mem_map.mpr ⟨regCountSum args, ?_, Nat.sub_add_cancel hroom⟩
      simp
      omega
    have := hapart _ hlast _ (Nat.le_refl _) (by omega)
    omega
  · intro hfew
    obtain ⟨frame, hframe⟩ := setUpCall_ok m size hfew
    obtain ⟨hret, -, -, hwrites⟩ := setUpCall_writes hframe
    refine ⟨⟨frame, hframe, _, _, hret, Nat.le_of_eq hptr, hwrites, ?_⟩, fun _ _ => callFromHost_sp⟩
    intro p hp
    obtain ⟨off, hoff, -⟩ := mem_map.mp hp
    simp at hoff
    omega

theorem callFromHost_apart_iff_three : (8#32).toNat ≤ sampleMachine.sp ∧
      ∃ frame, setUpCall (some 8) [⟨.u64, (1 : BitVec 64)⟩, ⟨.i8, (-1 : BitVec 8)⟩] sampleMachine = .ok frame ∧
        Apart sampleMachine 8 frame := by
  have room : (8#32).toNat ≤ sampleMachine.sp := by decide
  have hiff := callFromHost_apart_iff sampleMachine 8 [⟨.u64, (1 : BitVec 64)⟩, ⟨.i8, (-1 : BitVec 8)⟩] room
  exact ⟨room, (hiff.mpr (by decide)).1⟩

def fourWords : List Arg := .replicate 4 ⟨.u32, (1 : BitVec 32)⟩

/-- The fourth word is written where the value is to be returned. -/
theorem callFromHost_overlaps :
    ∃ frame, setUpCall (some 8) fourWords sampleMachine = .ok frame ∧ frame.retvalPtr = some 0xff8 ∧
      frame.machine.writes = [0xff8] ∧ ¬Apart sampleMachine 8 frame := by
  have hok : ∃ frame, setUpCall (some 8) fourWords sampleMachine = .ok frame := ⟨_, rfl⟩
  obtain ⟨frame, hframe⟩ := hok
  obtain ⟨hret, -, -, hwrites⟩ := setUpCall_writes hframe
  refine ⟨frame, hframe, hret, hwrites, ?_⟩
  intro ⟨ptr, new, hret', _, hnew, hapart⟩
  obtain rfl : 0xff8 = ptr := Option.some.inj (hret.symm.trans hret')
  obtain rfl : [0xff8] = new := hwrites.symm.trans hnew
  exact (hapart 0xff8 (mem_singleton_self _) 0xff8 (by decide) (by decide)).1 (by decide)

end TouchHLE.Abi
