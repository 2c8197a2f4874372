import TouchHLE.Theorems.Dyld.Stubs

/-! Restoring a stub. A stub of one instruction is given the distance between the sections as its offset, which counts from
    eight bytes after the instruction, so that it uses the pointer of another stub. -/

namespace TouchHLE.Dyld
open Lib Linker List
open Mem (wrap)
open Environment (readLe_congr)
open Objc.Selectors (writeLe_of_not)
variable {F C : Type}

/-- A stub with its own slot in the section of lazy pointers, where `entrySize` is one that `setup_lazy_linking` accepts. -/
structure StubSlot where
  stubs : Nat
  lazyPtrs : Nat
  entrySize : Nat
  count : Nat
  index : Nat
  sized : entrySize = 4 ∨ entrySize = 12 ∨ entrySize = 16
  index_lt : index < count
  stubs_le : stubs + entrySize * count ≤ 2 ^ 32
  lazyPtrs_le : lazyPtrs + 4 * count ≤ 2 ^ 32
  apart : stubs + entrySize * count ≤ lazyPtrs ∨ lazyPtrs + 4 * count ≤ stubs

namespace StubSlot
variable (l : StubSlot)

def pc : Nat := l.stubs + l.entrySize * l.index

def slot : Nat := l.lazyPtrs + 4 * l.index

/-- The word after the instructions says where the slot is. -/
def Names (s : Linker F C) : Prop :=
  (l.entrySize = 12 → s.read (l.pc + 8) = l.slot) ∧ (l.entrySize = 16 → wrap (l.pc + s.read (l.pc + 12) + 12) = l.slot)

/-- The symbol is that of a function of the guest, or of one that has an address already. -/
def Found (P : Image F C) (s : Linker F C) (symbol : Symbol) (p : Nat) : Prop :=
  s.nonLazyHostFunctions symbol = some p ∨
    s.nonLazyHostFunctions symbol = none ∧ P.hostFunction symbol = none ∧ P.exported symbol = some p

/-- Linking the stub changes nothing but the stub and its slot, and the stub then jumps to the function. -/
def Restores (P : Image F C) (symbol : Symbol) : Prop :=
  ∀ (s : Linker F C) p, p < 2 ^ 32 → l.Names s → Found P s symbol p →
    ∃ t, s.linkSymbol P symbol l.pc l.entrySize (wrap (l.lazyPtrs + 2 ^ 32 - l.stubs)) = .ok (none, t) ∧
      t.read l.slot = p ∧ t.jump l.pc = .ok p ∧
      ∀ x, x < l.pc ∨ l.pc + l.entrySize ≤ x → x < l.slot ∨ l.slot + 4 ≤ x → t.mem x = s.mem x

theorem linkSymbol_of_found {P : Image F C} {s} {symbol} {p : Nat} (h : Found P s symbol p)
    (pc entrySize picOffset : Nat) : s.linkSymbol P symbol pc entrySize picOffset =
      s.linkByRestoringStub p pc entrySize picOffset >>= fun t => .ok (none, t) := by
  unfold linkSymbol
  rcases h with hp | ⟨hnon, hhst, hexp⟩
  · rw [hp]
  · rw [hnon, hhst, hexp]

section
variable {s : Linker F C} {a b p v w x : Nat}

theorem mem_write (h : x < a ∨ a + 4 ≤ x) : (s.write a v).mem x = s.mem x := writeLe_of_not fun hin => by omega

theorem mem_writeAll (instrs : List Nat) (h : x < a ∨ a + 4 * instrs.length ≤ x) : (s.writeAll a instrs).mem x = s.mem x := by
  induction instrs generalizing s a with
  | nil => rfl
  | cons instr rest ih =>
    rw [length_cons] at h
    exact (ih (by omega)).trans (mem_write (by omega))

/-- The instructions and the word after them, once a word elsewhere has been written. -/
theorem read_restored (instrs : List Nat) (hlt : ∀ instr ∈ instrs, instr < 2 ^ 32)
    (h : a + 4 * instrs.length + 4 ≤ b ∨ b + 4 ≤ a) :
    (∀ w instr, instrs[w]? = some instr → ((s.writeAll a instrs).write b p).read (a + 4 * w) = instr) ∧
      ∀ c, c = a + 4 * instrs.length →
        ((s.writeAll a instrs).write b p).read c = s.read c ∧ (s.writeAll a instrs).read c = s.read c := by
  have hdat : ∀ c, c = a + 4 * instrs.length → (s.writeAll a instrs).read c = s.read c := by
    intro c hc
    exact readLe_congr 4 c fun x hlow _ => mem_writeAll instrs (by omega)
  refine ⟨fun w instr hw => ?_, fun c hc => ⟨(read_write_of_apart (by omega)).trans (hdat c hc), hdat c hc⟩⟩
  have hlen := (List.getElem?_eq_some_iff.mp hw).1
  exact (read_write_of_apart (by omega)).trans (read_writeAll instrs hlt hw)

theorem linkByRestoringStub_twelve (off : Nat) : s.linkByRestoringStub p a 12 off =
    .ok ((s.writeAll a symbolStubInstructions).write ((s.writeAll a symbolStubInstructions).read (a + 8)) p) := rfl

theorem linkByRestoringStub_sixteen (off : Nat) : s.linkByRestoringStub p a 16 off =
    .ok ((s.writeAll a picSymbolStubInstructions).write
      (wrap (a + (s.writeAll a picSymbolStubInstructions).read (a + 12) + 12)) p) := rfl

theorem linkByRestoringStub_four {off : Nat} (hoff : off < 2 ^ 32) : s.linkByRestoringStub p a 4 off =
    .ok ((s.write a (0xe59ff000 ||| off)).write (wrap (a + off % 2 ^ 12 + 8)) p) := by
  have heq : s.linkByRestoringStub p a 4 off = .ok ((s.write a (0xe59ff000 ||| off)).write
      (wrap (a + ((s.write a (0xe59ff000 ||| off)).read a &&& 0xFFF) + 8)) p) := rfl
  have hlow : (0xe59ff000 ||| off) &&& 0xFFF = off % 2 ^ 12 := by
    rw [Nat.and_or_distrib_right]
    exact (Nat.zero_or _).trans (Nat.and_two_pow_sub_one_eq_mod off 12)
  rw [heq, read_write_self (Nat.or_lt_two_pow (by decide) hoff), hlow]

end

theorem restores_of_ne (h : l.entrySize ≠ 4) (P : Image F C) (symbol : Symbol) : l.Restores P symbol := by
  obtain ⟨stubs, lazyPtrs, entrySize, count, index, sized, hi, hs, hl, hap⟩ := l
  intro s p hp hn hf
  obtain ⟨h12, h16⟩ := hn
  rw [linkSymbol_of_found hf]
  simp only [pc, slot] at *
  rcases sized with rfl | rfl | rfl
  · exact absurd rfl h
  · obtain ⟨hrd, hdat⟩ := read_restored (s := s) (a := stubs + 12 * index) (b := lazyPtrs + 4 * index) (p := p)
      symbolStubInstructions (by decide) (by change _ + 4 * 2 + 4 ≤ _ ∨ _; omega)
    obtain ⟨ht, hu⟩ := hdat (stubs + 12 * index + 8) rfl
    rw [linkByRestoringStub_twelve, ok_bind, hu, h12 rfl]
    refine ⟨_, rfl, read_write_self hp, ?_, fun x hx hx' => ?_⟩
    · unfold jump
      rw [if_pos ⟨hrd 0 _ rfl, hrd 1 _ rfl⟩, ht, h12 rfl, read_write_self hp]
    · rw [mem_write hx', mem_writeAll _ (by change _ ∨ _ + 4 * 2 ≤ _; omega)]
  · obtain ⟨hrd, hdat⟩ := read_restored (s := s) (a := stubs + 16 * index) (b := lazyPtrs + 4 * index) (p := p)
      picSymbolStubInstructions (by decide) (by change _ + 4 * 3 + 4 ≤ _ ∨ _; omega)
    obtain ⟨ht, hu⟩ := hdat (stubs + 16 * index + 12) rfl
    rw [linkByRestoringStub_sixteen, ok_bind, hu, h16 rfl]
    refine ⟨_, rfl, read_write_self hp, ?_, fun x hx hx' => ?_⟩
    · unfold jump
      rw [if_neg fun h => absurd (h.1.symm.trans (hrd 0 _ rfl)) (by decide), if_pos ⟨hrd 0 _ rfl, hrd 1 _ rfl, hrd 2 _ rfl⟩,
        ht, Nat.add_right_comm, h16 rfl, read_write_self hp]
    · rw [mem_write hx', mem_writeAll _ (by change _ ∨ _ + 4 * 3 ≤ _; omega)]

/-- A slot is not changed when its stub is one instruction. -/
theorem not_restores_of_eq (h : l.entrySize = 4) (P : Image F C) (symbol : Symbol) : ¬l.Restores P symbol := by
  obtain ⟨stubs, lazyPtrs, entrySize, count, index, sized, hi, hs, hl, hap⟩ := l
  obtain rfl : entrySize = 4 := h
  intro hr
  obtain ⟨t, heq, hrd, -⟩ := hr ⟨fun _ => 0, [], [], fun _ => some 1, 0, [], []⟩ 1 (by decide) ⟨nofun, nofun⟩ (.inl rfl)
  have hoff : wrap (lazyPtrs + 2 ^ 32 - stubs) < 2 ^ 32 := Nat.mod_lt _ (by decide)
  rw [linkSymbol_of_found (.inl rfl), linkByRestoringStub_four hoff] at heq
  cases heq
  simp only [slot, pc, wrap] at hrd
  rw [read_write_of_apart (by omega), read_write_of_apart (by omega)] at hrd
  cases hrd

theorem restores_iff (l : StubSlot) (P : Image F C) (symbol : Symbol) : l.Restores P symbol ↔ l.entrySize ≠ 4 :=
  ⟨fun h heq => l.not_restores_of_eq heq P symbol h, fun h => l.restores_of_ne h P symbol⟩

/-- One stub at 0x1000, with its slot at 0x2000. -/
theorem restores_fails : ¬Restores ⟨0x1000, 0x2000, 4, 1, 0, by decide, by decide, by decide, by decide, by decide⟩
    (⟨[], [], [], fun _ _ => 0, (), ()⟩ : Image Unit Unit) [] :=
  not_restores_of_eq _ rfl _ _

end StubSlot
end TouchHLE.Dyld
