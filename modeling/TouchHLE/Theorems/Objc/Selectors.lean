import TouchHLE.Objc.Selectors

/-! Selectors are interned: the table maps each name to a C string of that name in the guest memory, as long as the names
    have no zero bytes. -/

namespace TouchHLE.Objc.Selectors
open Lib List Function
open Environment (readLe readLe_written readLe_congr)

structure CStr (mem : Nat → UInt8) (ptr : Nat) (name : List UInt8) : Prop where
  nonzero : 0 ∉ name
  bound : ptr + name.length < 2 ^ 32
  bytes : ∀ i b, name[i]? = some b → mem (ptr + i) = b
  terminator : mem (ptr + name.length) = 0

section
variable {mem mem' : Nat → UInt8} {ptr n x value : Nat} {name name' : List UInt8}

theorem cstrLoop_of_eq_ok (h : cstrLoop mem n ptr = .ok name) :
    0 ∉ name ∧ name.length < n ∧ (∀ i b, name[i]? = some b → mem (ptr + i) = b) ∧
      mem (ptr + name.length) = 0 := by
  induction n generalizing ptr name with
  | zero => cases h
  | succ n ih =>
    rw [cstrLoop] at h
    split at h
    · rename_i hzr
      cases h
      exact ⟨not_mem_nil, Nat.succ_pos n, fun i b hi => by simp at hi, hzr⟩
    · rename_i hne
      obtain ⟨rest, hrt, heq⟩ := bind_eq_ok.mp h
      cases heq
      obtain ⟨hnot, hlen, hby, hend⟩ := ih hrt
      refine ⟨?_, Nat.succ_lt_succ hlen, fun i b hi => ?_, ?_⟩
      · rw [mem_cons, not_or]
        exact ⟨fun h => hne h.symm, hnot⟩
      · cases i with
        | zero => exact Option.some_inj.mp hi
        | succ i =>
          rw [← Nat.add_assoc, Nat.add_right_comm]
          exact hby i b hi
      · rw [length_cons, ← Nat.add_assoc, Nat.add_right_comm]
        exact hend

theorem cstrLoop_eq_ok (hnot : 0 ∉ name) (hlen : name.length < n)
    (hby : ∀ i b, name[i]? = some b → mem (ptr + i) = b) (hend : mem (ptr + name.length) = 0) :
    cstrLoop mem n ptr = .ok name := by
  induction name generalizing n ptr with
  | nil =>
    obtain ⟨m, rfl⟩ := Nat.exists_eq_succ_of_ne_zero (Nat.ne_of_gt hlen)
    exact if_pos hend
  | cons b name ih =>
    obtain ⟨m, rfl⟩ := Nat.exists_eq_succ_of_ne_zero (Nat.ne_of_gt (Nat.zero_lt_of_lt hlen))
    rw [mem_cons, not_or] at hnot
    have hhd : mem ptr = b := hby 0 b rfl
    have htl : cstrLoop mem m (ptr + 1) = .ok name := by
      refine ih hnot.2 (Nat.lt_of_succ_lt_succ hlen) (fun i c hi => ?_) ?_
      · rw [Nat.add_right_comm]
        exact hby (i + 1) c hi
      · rw [Nat.add_right_comm]
        exact hend
    rw [cstrLoop, if_neg (fun h => hnot.1 (h.symm.trans hhd)), htl, hhd]
    rfl

theorem cstrAt_eq_ok : cstrAt mem ptr = .ok name ↔ CStr mem ptr name := by
  constructor
  · intro h
    obtain ⟨hnot, hlen, hby, hend⟩ := cstrLoop_of_eq_ok h
    exact ⟨hnot, by omega, hby, hend⟩
  · intro h
    have hbn := h.bound
    exact cstrLoop_eq_ok h.nonzero (by omega) h.bytes h.terminator

theorem CStr.unique (h : CStr mem ptr name) (h' : CStr mem ptr name') : name = name' :=
  Except.ok.inj ((cstrAt_eq_ok.mpr h).symm.trans (cstrAt_eq_ok.mpr h'))

theorem CStr.congr (h : CStr mem ptr name) (hmem : ∀ x, ptr ≤ x → x ≤ ptr + name.length → mem' x = mem x) :
    CStr mem' ptr name := by
  refine ⟨h.nonzero, h.bound, fun i b hi => ?_, ?_⟩
  · have hlt := (List.getElem?_eq_some_iff.mp hi).1
    rw [hmem _ (Nat.le_add_right _ _) (by omega)]
    exact h.bytes i b hi
  · rw [hmem _ (Nat.le_add_right _ _) (Nat.le_refl _)]
    exact h.terminator

theorem cstr_of_utf8 (h : cstrAtUtf8 mem ptr = .ok name) : CStr mem ptr name := by
  obtain ⟨bytes, hby, heq⟩ := bind_eq_ok.mp h
  split at heq
  · cases heq
    exact cstrAt_eq_ok.mp hby
  · cases heq

theorem cstr_overwrite (hnot : 0 ∉ name) (hbn : ptr + name.length < 2 ^ 32) :
    CStr (Mem.overwrite mem ptr (name ++ [0])) ptr name := by
  have hbyt : ∀ i b, (name ++ [0])[i]? = some b → Mem.overwrite mem ptr (name ++ [0]) (ptr + i) = b := by
    intro i b hi
    have hlt := (List.getElem?_eq_some_iff.mp hi).1
    rw [Mem.overwrite, if_pos ⟨Nat.le_add_right _ _, by omega⟩, Nat.add_sub_cancel_left, List.getD_eq_getElem?_getD, hi]
    rfl
  refine ⟨hnot, hbn, fun i b hi => ?_, ?_⟩
  · have hlt := (List.getElem?_eq_some_iff.mp hi).1
    exact hbyt i b (by rw [List.getElem?_append_left hlt, hi])
  · exact hbyt name.length 0 (by simp)

theorem overwrite_of_not {data} (h : ¬(ptr ≤ x ∧ x < ptr + data.length)) :
    Mem.overwrite mem ptr data x = mem x := if_neg h

theorem writeLe_of_not {size : Nat} (h : ¬(ptr ≤ x ∧ x < ptr + size)) : writeLe mem ptr size value x = mem x := if_neg h

theorem readLe_writeLe (h : value < 2 ^ 32) : readLe (writeLe mem ptr 4 value) ptr 4 = value := by
  have hrd := readLe_written mem ptr 4 value 4 0 (Nat.le_refl 4)
  rw [Nat.add_zero, Nat.pow_zero, Nat.div_one] at hrd
  exact hrd.trans (Nat.mod_eq_of_lt h)

end

/-- What has happened: a selector has been returned for a name, a slot of a section has been given its selector. -/
inductive Event where
  | returned (name : List UInt8) (sel : Nat)
  /-- The name is that of the string that the slot pointed to. -/
  | slot (addr : Nat) (name : List UInt8)
deriving DecidableEq

def slotEvent (mem : Nat → UInt8) (addr : Nat) : Option Event :=
  match cstrAt mem (readLe mem addr 4) with
  | .ok name => some (.slot addr name)
  | .error _ => none

def note (s : Selectors) (c : Call) (r : List (List UInt8 × Nat)) (_ : Selectors) : List Event :=
  r.map (fun e => .returned e.1 e.2) ++
    match c with
    | .registerBinSelectors addr size => (slots addr size).filterMap (slotEvent s.mem)
    | _ => []

def InString (s : Selectors) (x : Nat) : Prop := ∃ name sel, s.selectors name = some sel ∧ sel ≤ x ∧ x ≤ sel + name.length

def InSlot (log : List Event) (x : Nat) : Prop := ∃ addr name, .slot addr name ∈ log ∧ addr ≤ x ∧ x < addr + 4

/-- The memory for the string of a new name is not that of a registered string or of a slot. -/
def FitsName (log : List Event) (s : Selectors) (name : List UInt8) (alloc : Nat) : Prop :=
  s.selectors name = none → ∀ x, alloc ≤ x → x ≤ alloc + name.length → ¬InString s x ∧ ¬InSlot log x

def FitsNames (log : List Event) (s : Selectors) : List (List UInt8 × Nat) → Prop
  | [] => True
  | n :: ns => FitsName log s n.1 n.2 ∧ ∀ r t, s.registerTemplate n = .ok (r, t) → FitsNames log t ns

/-- A section of slots: they point to strings, it overlaps neither these nor registered ones, and it has slots in common
    with earlier sections or is apart from them. -/
structure FitsSection (log : List Event) (s : Selectors) (addr size : Nat) : Prop where
  strings : ∀ x, addr ≤ x → x < addr + size → ¬InString s x
  own : ∀ slot ∈ slots addr size, ∃ name, cstrAt s.mem (readLe s.mem slot 4) = .ok name ∧
    ∀ x, readLe s.mem slot 4 ≤ x → x ≤ readLe s.mem slot 4 + name.length → ¬(addr ≤ x ∧ x < addr + size)
  sections : ∀ a name, .slot a name ∈ log → a ∈ slots addr size ∨ a + 4 ≤ addr ∨ addr + size ≤ a

/-- Registered strings and slots are not modified, by the allocator, by sections or by other writes. -/
def Fits (p : List Event × Selectors) : Call → Prop
  | .registerBinSelectors addr size => FitsSection p.1 p.2 addr size
  | .registerHostSelectors names => FitsNames p.1 p.2 names
  | .registerHostSelector name alloc => FitsName p.1 p.2 name alloc
  | .addMethodsFromBin _ => True
  | .selRegisterName ptr alloc => ∀ name, cstrAtUtf8 p.2.mem ptr = .ok name → FitsName p.1 p.2 name alloc
  | .write ptr _ => ¬InString p.2 ptr ∧ ¬InSlot p.1 ptr

/-! ### What a registration does -/

def Strings (s : Selectors) : Prop := ∀ name sel, s.selectors name = some sel → CStr s.mem sel name

structure Grows (log : List Event) (s t : Selectors) : Prop where
  kept : ∀ name sel, s.selectors name = some sel → t.selectors name = some sel
  strings : Strings t
  slots : ∀ x, InSlot log x → t.mem x = s.mem x

variable {log : List Event} {s t u : Selectors} {name : List UInt8} {sel : Nat}
variable {p alloc lo hi a addr size : Nat} {r : List UInt8 × Nat} {rs : List (List UInt8 × Nat)} {todo : List Nat}

theorem Grows.refl (h : Strings s) : Grows log s s := ⟨fun _ _ h => h, h, fun _ _ => rfl⟩

theorem Grows.trans (h : Grows log s t) (h' : Grows log t u) : Grows log s u :=
  ⟨fun n p hn => h'.kept n p (h.kept n p hn), h'.strings, fun x hx => (h'.slots x hx).trans (h.slots x hx)⟩

theorem selectors_insert_self : (s.insert name sel).selectors name = some sel := update_self _ _ _

theorem selectors_insert {n} (h : (s.insert name sel).selectors n = some p) :
    (n = name ∧ p = sel) ∨ s.selectors n = some p := by
  rcases eq_or_ne n name with rfl | hne
  · rw [selectors_insert_self] at h
    exact .inl ⟨rfl, (Option.some_inj.mp h).symm⟩
  · right
    simpa [insert, update_of_ne hne] using h

theorem kept_insert (hno : s.selectors name = none) {n} (h : s.selectors n = some p) :
    (s.insert name sel).selectors n = some p := by
  have hne : n ≠ name := by
    rintro rfl
    rw [hno] at h
    cases h
  simpa [insert, update_of_ne hne] using h

/-- A string of the memory is registered under its name. -/
theorem Grows.insert (h : Strings s) (hno : s.selectors name = none) (hstr : CStr s.mem sel name) :
    Grows log s (s.insert name sel) := by
  refine ⟨fun n p => kept_insert hno, fun n p hn => ?_, fun _ _ => rfl⟩
  rcases selectors_insert hn with ⟨rfl, rfl⟩ | hn
  · exact hstr
  · exact h n p hn

theorem Grows.write {mem} (h : Strings s) (hmem : ∀ x, InString s x ∨ InSlot log x → mem x = s.mem x) :
    Grows log s { s with mem } := by
  refine ⟨fun _ _ hn => hn, fun n p hn => ?_, fun x hx => hmem x (.inr hx)⟩
  exact (h n p hn).congr fun x hlo hhi => hmem x (.inl ⟨n, p, hn, hlo, hhi⟩)

theorem registerTemplate_ok (h : Strings s) (hft : FitsName log s name alloc)
    (hcl : s.registerTemplate (name, alloc) = .ok (r, t)) :
    r.1 = name ∧ t.selectors name = some r.2 ∧ (0 ∉ name → Grows log s t) := by
  obtain ⟨⟨sel, t'⟩, hho, heq⟩ := bind_eq_ok.mp hcl
  cases heq
  refine ⟨rfl, ?_⟩
  unfold registerHostSelector lookupSelector at hho
  cases hnm : s.selectors name with
  | some existing =>
    rw [hnm] at hho
    cases hho
    exact ⟨hnm, fun _ => .refl h⟩
  | none =>
    simp only [hnm, allocAndWriteCstr] at hho
    split at hho
    · rename_i hbn
      cases hho
      refine ⟨selectors_insert_self, fun hnot => ?_⟩
      -- The new string is written where nothing is registered, and then registered itself.
      have hwi : Grows log s { s with mem := Mem.overwrite s.mem alloc (name ++ [0]) } := by
        refine .write h fun x hx => overwrite_of_not fun hin => ?_
        rw [length_append, length_singleton] at hin
        have hfr := hft hnm x hin.1 (by omega)
        rcases hx with hx | hx
        · exact hfr.1 hx
        · exact hfr.2 hx
      exact hwi.trans (.insert hwi.strings hnm (cstr_overwrite hnot hbn))
    · cases hho

theorem registerBinSelector_ok (log : List Event) {ptr : Nat} (h : Strings s)
    (hcl : s.registerBinSelector ptr = .ok (r, t)) :
    CStr s.mem ptr r.1 ∧ t.selectors r.1 = some r.2 ∧ t.mem = s.mem ∧ Grows log s t ∧
      ∀ n p, t.selectors n = some p → s.selectors n = some p ∨ (n = r.1 ∧ p = ptr) := by
  obtain ⟨selStr, hstr, hrt⟩ := bind_eq_ok.mp hcl
  have hcst := cstr_of_utf8 hstr
  unfold lookupSelector at hrt
  cases hnm : s.selectors selStr with
  | some existing =>
    rw [hnm] at hrt
    cases hrt
    exact ⟨hcst, hnm, rfl, .refl h, fun n p hn => .inl hn⟩
  | none =>
    rw [hnm] at hrt
    cases hrt
    refine ⟨hcst, selectors_insert_self, rfl, .insert h hnm hcst, fun n p hn => ?_⟩
    exact (selectors_insert hn).symm

theorem registerEach_ok {β : Type} {round}
    (fits : Selectors → List β → Prop) (fine : List UInt8 × Nat → Prop) {bs}
    (hro : ∀ s t b bs r, Strings s → fits s (b :: bs) → fine r → round s b = .ok (r, t) →
      t.selectors r.1 = some r.2 ∧ Grows log s t ∧ fits t bs)
    (h : Strings s) (hft : fits s bs) (hcl : s.registerEach round bs = .ok (rs, t)) (hfin : ∀ r ∈ rs, fine r) :
    (∀ r ∈ rs, t.selectors r.1 = some r.2) ∧ Grows log s t := by
  induction bs generalizing s rs with
  | nil =>
    cases hcl
    exact ⟨fun _ hr => absurd hr not_mem_nil, .refl h⟩
  | cons b bs ih =>
    obtain ⟨⟨r, s₁⟩, hfs, hcl⟩ := bind_eq_ok.mp hcl
    obtain ⟨⟨rest, t'⟩, hrt, heq⟩ := bind_eq_ok.mp hcl
    cases heq
    obtain ⟨hsel, hgr, hft'⟩ := hro s s₁ b bs r h hft (hfin r mem_cons_self) hfs
    obtain ⟨hsl, hgr'⟩ := ih hgr.strings hft' hrt fun e he => hfin e (mem_cons_of_mem r he)
    refine ⟨fun e he => ?_, hgr.trans hgr'⟩
    rcases mem_cons.mp he with rfl | he
    · exact hgr'.kept _ _ hsel
    · exact hsl e he

theorem registerHostSelectors_ok {names} (h : Strings s) (hft : FitsNames log s names)
    (hcl : s.registerHostSelectors names = .ok (rs, t)) (hfin : ∀ r ∈ rs, 0 ∉ r.1) :
    (∀ r ∈ rs, t.selectors r.1 = some r.2) ∧ Grows log s t := by
  refine registerEach_ok (FitsNames log) (fun r => 0 ∉ r.1) ?_ h hft hcl hfin
  intro s t n ns r hs hft hfin hro
  obtain ⟨hnm, hsel, hgr⟩ := registerTemplate_ok hs hft.1 hro
  exact ⟨hnm ▸ hsel, hgr (hnm ▸ hfin), hft.2 r t hro⟩

theorem addMethodsFromBin_ok {methodList : Nat} (h : Strings s)
    (hcl : s.addMethodsFromBin methodList = .ok (rs, t)) :
    (∀ r ∈ rs, t.selectors r.1 = some r.2) ∧ Grows log s t := by
  obtain ⟨entsize, -, hcl⟩ := bind_eq_ok.mp hcl
  obtain ⟨count, -, hcl⟩ := bind_eq_ok.mp hcl
  split at hcl
  · cases hcl
  · split at hcl
    · cases hcl
    · refine registerEach_ok (fun _ _ => True) (fun _ => True) ?_ h trivial hcl fun _ _ => trivial
      intro s t i is r hs _ _ hro
      obtain ⟨method, -, hro⟩ := bind_eq_ok.mp hro
      obtain ⟨-, hsel, -, hgr, -⟩ := registerBinSelector_ok log hs hro
      exact ⟨hsel, hgr, trivial⟩

/-- What the slots of a section `lo .. hi` need: registered strings and the strings that they point to are elsewhere. -/
structure Apart (s : Selectors) (lo hi : Nat) (todo : List Nat) : Prop where
  strings : ∀ n p, s.selectors n = some p → ∀ x, p ≤ x → x ≤ p + n.length → ¬(lo ≤ x ∧ x < hi)
  inside : ∀ a ∈ todo, lo ≤ a ∧ a + 4 ≤ hi
  ordered : todo.Pairwise fun a b => a + 4 ≤ b
  own : ∀ a ∈ todo, ∃ name, CStr s.mem (readLe s.mem a 4) name ∧
    ∀ x, readLe s.mem a 4 ≤ x → x ≤ readLe s.mem a 4 + name.length → ¬(lo ≤ x ∧ x < hi)

/-- One slot: it gets the selector of the string that it pointed to, and nothing else in the memory changes. -/
theorem registerSlot_ok (h : Strings s)
    (hap : Apart s lo hi (a :: todo)) (hcl : s.registerSlot a = .ok (r, t)) :
    CStr s.mem (readLe s.mem a 4) r.1 ∧ t.selectors r.1 = some r.2 ∧ readLe t.mem a 4 = r.2 ∧ Strings t ∧
      (∀ n p, s.selectors n = some p → t.selectors n = some p) ∧ (∀ x, ¬(a ≤ x ∧ x < a + 4) → t.mem x = s.mem x) ∧
      ∀ n p, t.selectors n = some p → ∀ x, p ≤ x → x ≤ p + n.length → ¬(lo ≤ x ∧ x < hi) := by
  obtain ⟨selCstr, hrd, hcl⟩ := bind_eq_ok.mp hcl
  obtain ⟨⟨r', s₁⟩, hbin, heq⟩ := bind_eq_ok.mp hcl
  cases heq
  unfold read at hrd
  split at hrd
  · cases hrd
    obtain ⟨hstr, hsel, hmem, hgr, hnew⟩ := registerBinSelector_ok [] h hbin
    obtain ⟨hlo, hhi⟩ := hap.inside a mem_cons_self
    have hout : ∀ n p, s₁.selectors n = some p → ∀ x, p ≤ x → x ≤ p + n.length → ¬(lo ≤ x ∧ x < hi) := by
      intro n p hn x hx hx'
      rcases hnew n p hn with hold | ⟨rfl, rfl⟩
      · exact hap.strings n p hold x hx hx'
      · obtain ⟨name, hnm, hown⟩ := hap.own a mem_cons_self
        rw [hnm.unique hstr] at hown
        exact hown x hx hx'
    have hsm : ∀ x, ¬(a ≤ x ∧ x < a + 4) → writeLe s₁.mem a 4 r'.2 x = s.mem x := fun x hx =>
      (writeLe_of_not hx).trans (congrFun hmem x)
    have hlt : r'.2 < 2 ^ 32 := Nat.lt_of_le_of_lt (Nat.le_add_right _ _) (hgr.strings _ _ hsel).bound
    refine ⟨hstr, hsel, readLe_writeLe hlt, fun n p hn => ?_, hgr.kept, hsm, hout⟩
    refine (hgr.strings n p hn).congr fun x hx hx' => writeLe_of_not fun hin => ?_
    exact hout n p hn x hx hx' ⟨hlo.trans hin.1, Nat.lt_of_lt_of_le hin.2 hhi⟩
  · cases hrd

theorem Apart.tail (h : Apart s lo hi (a :: todo)) (hmem : ∀ x, ¬(a ≤ x ∧ x < a + 4) → t.mem x = s.mem x)
    (hout : ∀ n p, t.selectors n = some p → ∀ x, p ≤ x → x ≤ p + n.length → ¬(lo ≤ x ∧ x < hi)) :
    Apart t lo hi todo ∧ ∀ b ∈ todo, readLe t.mem b 4 = readLe s.mem b 4 ∧
      ∀ name, CStr s.mem (readLe s.mem b 4) name → CStr t.mem (readLe s.mem b 4) name := by
  obtain ⟨hfs, hrt⟩ := pairwise_cons.mp h.ordered
  obtain ⟨hlo, hhi⟩ := h.inside a mem_cons_self
  have hwd : ∀ b ∈ todo, readLe t.mem b 4 = readLe s.mem b 4 := by
    intro b hb
    have hab := hfs b hb
    exact readLe_congr 4 b fun x hx _ => hmem x (by omega)
  have hsti : ∀ b ∈ todo, ∀ name, CStr s.mem (readLe s.mem b 4) name → CStr t.mem (readLe s.mem b 4) name := by
    intro b hb name hnm
    obtain ⟨name', hnm', hown⟩ := h.own b (mem_cons_of_mem a hb)
    rw [hnm'.unique hnm] at hown
    refine hnm.congr fun x hx hx' => hmem x fun hin => ?_
    exact hown x hx hx' ⟨hlo.trans hin.1, Nat.lt_of_lt_of_le hin.2 hhi⟩
  refine ⟨⟨hout, fun b hb => h.inside b (mem_cons_of_mem a hb), hrt, fun b hb => ?_⟩, fun b hb => ⟨hwd b hb, hsti b hb⟩⟩
  obtain ⟨name, hnm, hown⟩ := h.own b (mem_cons_of_mem a hb)
  rw [hwd b hb]
  exact ⟨name, hsti b hb name hnm, hown⟩

theorem registerSlots_ok (h : Strings s)
    (hap : Apart s lo hi todo) (hcl : s.registerEach registerSlot todo = .ok (rs, t)) :
    Strings t ∧ (∀ n p, s.selectors n = some p → t.selectors n = some p) ∧ (∀ r ∈ rs, t.selectors r.1 = some r.2) ∧
      (∀ x, (∀ a ∈ todo, ¬(a ≤ x ∧ x < a + 4)) → t.mem x = s.mem x) ∧
      ∀ a ∈ todo, ∀ name, CStr s.mem (readLe s.mem a 4) name → t.selectors name = some (readLe t.mem a 4) := by
  induction todo generalizing s rs with
  | nil =>
    cases hcl
    exact ⟨h, fun _ _ hn => hn, fun _ hr => absurd hr not_mem_nil, fun _ _ => rfl, fun _ ha => absurd ha not_mem_nil⟩
  | cons a todo ih =>
    obtain ⟨⟨r, s₁⟩, hfs, hcl⟩ := bind_eq_ok.mp hcl
    obtain ⟨⟨rest, t'⟩, hrt, heq⟩ := bind_eq_ok.mp hcl
    cases heq
    obtain ⟨hstr, hsel, hwd, hstn, hkp, hmem, hout⟩ := registerSlot_ok h hap hfs
    obtain ⟨hap', hsm⟩ := hap.tail hmem hout
    obtain ⟨hstn', hkp', hsl, hmem', hslo⟩ := ih hstn hap' hrt
    refine ⟨hstn', fun n p hn => hkp' n p (hkp n p hn), fun e he => ?_, fun x hx => ?_, fun b hb name hnm => ?_⟩
    · rcases mem_cons.mp he with rfl | he
      · exact hkp' _ _ hsel
      · exact hsl e he
    · rw [hmem' x fun b hb => hx b (mem_cons_of_mem a hb), hmem x (hx a mem_cons_self)]
    · rcases mem_cons.mp hb with rfl | hb
      · -- The slots that follow do not touch this one.
        have hsty : readLe t'.mem b 4 = readLe s₁.mem b 4 := by
          refine readLe_congr 4 b fun x _ hx => hmem' x fun c hc hin => ?_
          have hbc := (pairwise_cons.mp hap.ordered).1 c hc
          omega
        rw [hsty, hwd, hnm.unique hstr]
        exact hkp' _ _ hsel
      · obtain ⟨hw, hs⟩ := hsm b hb
        exact hslo b hb name (hw ▸ hs name hnm)

theorem mem_slots : a ∈ slots addr size ↔ ∃ i < size / 4, addr + 4 * i = a := by
  simp [slots]

theorem FitsSection.apart (h : FitsSection log s addr size) : Apart s addr (addr + size) (slots addr size) where
  strings := fun n p hn x hx hx' hin => h.strings x hin.1 hin.2 ⟨n, p, hn, hx, hx'⟩
  inside := fun a ha => by
    obtain ⟨i, hi, rfl⟩ := mem_slots.mp ha
    omega
  ordered := by
    refine pairwise_map.mpr (pairwise_lt_range.imp fun {i j} hij => ?_)
    omega
  own := fun a ha => by
    obtain ⟨name, hnm, hown⟩ := h.own a ha
    exact ⟨name, cstrAt_eq_ok.mp hnm, hown⟩

def Event.Holds (s : Selectors) : Event → Prop
  | .returned name sel => s.selectors name = some sel
  | .slot addr name => s.selectors name = some (readLe s.mem addr 4)

structure Inv (log : List Event) (s : Selectors) : Prop where
  strings : Strings s
  events : ∀ e ∈ log, e.Holds s

theorem Inv.grows (h : Inv log s) (hgr : Grows log s t) : Inv log t := by
  refine ⟨hgr.strings, fun e he => ?_⟩
  have hold := h.events e he
  cases e with
  | returned name sel => exact hgr.kept _ _ hold
  | slot addr name =>
    have hwd := readLe_congr 4 addr fun x hx hx' => hgr.slots x ⟨addr, name, he, hx, hx'⟩
    change t.selectors name = some (readLe t.mem addr 4)
    rw [hwd]
    exact hgr.kept _ _ hold

theorem Inv.append {es} (h : Inv log s) (hes : ∀ e ∈ es, e.Holds s) : Inv (log ++ es) s :=
  ⟨h.strings, fun e he => (mem_append.mp he).elim (h.events e) (hes e)⟩

theorem holds_returned (h : ∀ r ∈ rs, s.selectors r.1 = some r.2) :
    ∀ e ∈ rs.map (fun r => Event.returned r.1 r.2), e.Holds s := by
  intro e he
  obtain ⟨r, hr, rfl⟩ := mem_map.mp he
  exact h r hr

theorem Inv.noted (h : Inv log s) (hrs : ∀ r ∈ rs, s.selectors r.1 = some r.2) :
    Inv (log ++ (rs.map (fun r => .returned r.1 r.2) ++ [])) s := by
  rw [append_nil]
  exact h.append (holds_returned hrs)

/-- A section keeps what is known of its slots from earlier, and of slots elsewhere. -/
theorem registerBinSelectors_inv (h : Inv log s)
    (hft : FitsSection log s addr size) (hcl : s.registerBinSelectors addr size = .ok (rs, t)) :
    Inv (log ++ note s (.registerBinSelectors addr size) rs t) t := by
  unfold registerBinSelectors at hcl
  split at hcl
  · cases hcl
  · obtain ⟨hstn, hkp, hsl, hmem, hslo⟩ := registerSlots_ok h.strings hft.apart hcl
    refine ⟨hstn, fun e he => ?_⟩
    rcases mem_append.mp he with hold | hnew
    · have hhs := h.events e hold
      cases e with
      | returned name sel => exact hkp _ _ hhs
      | slot a name =>
        rcases hft.sections a name hold with hin | hout
        · -- The slot points to the string of its selector, and gets it again.
          exact hslo a hin name (h.strings _ _ hhs)
        · have hwd : readLe t.mem a 4 = readLe s.mem a 4 := by
            refine readLe_congr 4 a fun x hx hx' => hmem x fun b hb hin => ?_
            have hb' := hft.apart.inside b hb
            omega
          change t.selectors name = some (readLe t.mem a 4)
          rw [hwd]
          exact hkp _ _ hhs
    · rcases mem_append.mp hnew with hret | hslt
      · exact holds_returned hsl e hret
      · obtain ⟨a, ha, hevn⟩ := mem_filterMap.mp hslt
        unfold slotEvent at hevn
        split at hevn
        · rename_i name hnm
          cases hevn
          exact hslo a ha name (cstrAt_eq_ok.mp hnm)
        · cases hevn

/-- The names for which a selector has been returned have no zero bytes. -/
def NulFree (log : List Event) : Prop := ∀ name sel, .returned name sel ∈ log → 0 ∉ name

theorem selRegisterName_ok {ptr : Nat} (h : Strings s)
    (hft : ∀ name, cstrAtUtf8 s.mem ptr = .ok name → FitsName log s name alloc)
    (hcl : s.selRegisterName ptr alloc = .ok (r, t)) : t.selectors r.1 = some r.2 ∧ Grows log s t := by
  obtain ⟨name, hnm, hrt⟩ := bind_eq_ok.mp hcl
  unfold lookupSelector at hrt
  cases hlp : s.selectors name with
  | some existing =>
    rw [hlp] at hrt
    cases hrt
    exact ⟨hlp, .refl h⟩
  | none =>
    rw [hlp] at hrt
    -- The rest is what `register_host_selector` does for this name.
    have hho := hrt
    obtain ⟨rfl, hsel, hgr⟩ := registerTemplate_ok h (hft name hnm) hho
    exact ⟨hsel, hgr (cstr_of_utf8 hnm).nonzero⟩

theorem call_inv {c} (h : Inv log s) (hft : Fits (log, s) c)
    (hcl : s.call c = .ok (rs, t)) (hnul : NulFree (log ++ note s c rs t)) : Inv (log ++ note s c rs t) t := by
  have hnul' : ∀ r ∈ rs, 0 ∉ r.1 := fun r hr =>
    hnul r.1 r.2 (mem_append_right _ (mem_append_left _ (mem_map.mpr ⟨r, hr, rfl⟩)))
  cases c with
  | registerBinSelectors addr size => exact registerBinSelectors_inv h hft hcl
  | registerHostSelectors names =>
    obtain ⟨hsl, hgr⟩ := registerHostSelectors_ok h.strings hft hcl hnul'
    exact (h.grows hgr).noted hsl
  | registerHostSelector name alloc =>
    obtain ⟨⟨r, t'⟩, hcl', heq⟩ := bind_eq_ok.mp hcl
    cases heq
    obtain ⟨rfl, hsel, hgr⟩ := registerTemplate_ok h.strings hft hcl'
    exact (h.grows (hgr (hnul' r mem_cons_self))).noted (forall_mem_singleton.mpr hsel)
  | addMethodsFromBin methodList =>
    obtain ⟨hsl, hgr⟩ := addMethodsFromBin_ok h.strings hcl
    exact (h.grows hgr).noted hsl
  | selRegisterName ptr alloc =>
    obtain ⟨⟨r, t'⟩, hcl', heq⟩ := bind_eq_ok.mp hcl
    cases heq
    obtain ⟨hsel, hgr⟩ := selRegisterName_ok h.strings hft hcl'
    exact (h.grows hgr).noted (forall_mem_singleton.mpr hsel)
  | write ptr byte =>
    cases hcl
    refine (h.grows (.write h.strings fun x hx => update_of_ne ?_ _ _)).append fun _ he => absurd he not_mem_nil
    rintro rfl
    exact hx.elim hft.1 hft.2

/-- Selectors are interned, as far as the history goes. -/
structure Interned (log : List Event) (s : Selectors) : Prop where
  /-- A name has one selector, and that points to a C string of the name. -/
  string : ∀ name sel, s.selectors name = some sel → cstrAt s.mem sel = .ok name
  /-- A selector that has been returned for a name is still the one that is returned. -/
  returned : ∀ name sel, .returned name sel ∈ log → s.selectors name = some sel
  injective : ∀ n m p q, .returned n p ∈ log → .returned m q ∈ log → (p = q ↔ n = m)
  slots : ∀ addr name, .slot addr name ∈ log → s.selectors name = some (readLe s.mem addr 4)

theorem Inv.interned (h : Inv log s) : Interned log s := by
  have hrtr : ∀ name sel, .returned name sel ∈ log → s.selectors name = some sel := fun name sel he => h.events _ he
  refine ⟨fun name sel hn => cstrAt_eq_ok.mpr (h.strings name sel hn), hrtr, fun n m p q hn hm => ?_,
    fun addr name he => h.events _ he⟩
  have hn' := hrtr n p hn
  have hm' := hrtr m q hm
  constructor
  · rintro rfl
    exact (h.strings n p hn').unique (h.strings m p hm')
  · rintro rfl
    exact Option.some_inj.mp (hn'.symm.trans hm')

/-- In every state that registrations reach, the selectors are interned exactly when no name with a zero byte has been
    registered. -/
theorem interned_iff_of_runs {mem : Nat → UInt8} (hrun : Runs (recorded call note) Fits ([], start mem) (log, s)) :
    Interned log s ↔ NulFree log := by
  constructor
  · intro h name sel he
    exact (cstrAt_eq_ok.mp (h.string name sel (h.returned name sel he))).nonzero
  · have hinv : NulFree log → Inv log s := by
      refine hrun.invariant (P := fun p => NulFree p.1 → Inv p.1 p.2) (fun _ => ⟨fun _ _ h => (by cases h), fun _ he =>
        absurd he not_mem_nil⟩) fun p q c r hp hfits hcall hnul => ?_
      obtain ⟨hcall, hlog⟩ := recorded_eq_ok hcall
      rw [hlog] at hnul ⊢
      exact call_inv (hp fun name sel he => hnul name sel (mem_append_left _ he)) hfits hcall hnul
    exact fun hnul => (hinv hnul).interned

/-- A section with one slot, at 64, that points to the string `a`. -/
theorem interned_iff_of_runs_slot : ∃ mem s,
    Runs (recorded call note) Fits ([], start mem) ([.returned [97] 80, .slot 64 [97]], s) ∧
      (Interned [.returned [97] 80, .slot 64 [97]] s ↔ NulFree [.returned [97] 80, .slot 64 [97]]) := by
  let mem : Nat → UInt8 := fun x => if x = 64 then 80 else if x = 80 then 97 else 0
  have hfits : FitsSection [] (start mem) 64 4 := by
    refine ⟨fun x _ _ => ?_, fun slot hslot => ?_, fun _ _ he => absurd he not_mem_nil⟩
    · rintro ⟨name, sel, hn, -⟩
      cases hn
    · obtain rfl : slot = 64 := mem_singleton.mp hslot
      refine ⟨[97], rfl, fun x hx hx' => ?_⟩
      have hword : readLe mem 64 4 = 80 := rfl
      change readLe mem 64 4 ≤ x at hx
      omega
  have hutf8 : ([97] : List UInt8).toByteArray.validateUTF8 = true := by decide +kernel
  have hname : cstrAtUtf8 mem 80 = .ok [97] := if_pos hutf8
  have hslot : (start mem).registerSlot 64 = .ok (([97], 80), ⟨writeLe mem 64 4 80, ((start mem).insert [97] 80).selectors⟩) := by
    change (registerBinSelector (start mem) 80 >>= _) = _
    rw [registerBinSelector, start, hname]
    rfl
  have hcall : recorded call note ([], start mem) (.registerBinSelectors 64 4) =
      .ok ([([97], 80)], [.returned [97] 80, .slot 64 [97]], ⟨writeLe mem 64 4 80, ((start mem).insert [97] 80).selectors⟩) := by
    have hsection : (start mem).registerBinSelectors 64 4 = (start mem).registerEach registerSlot [64] := rfl
    rw [recorded, call, hsection, registerEach, hslot]
    rfl
  have hrun : Runs (recorded call note) Fits ([], start mem) ([.returned [97] 80, .slot 64 [97]], _) :=
    .step (a := .registerBinSelectors 64 4) .start hfits hcall
  exact ⟨mem, _, hrun, interned_iff_of_runs hrun⟩

/-- The name `a\0b` is registered with a C string that reads `a`. -/
theorem name_with_zero : ∃ s,
    Runs (recorded call note) Fits ([], start fun _ => 0) ([.returned [97, 0, 98] 16], s) ∧
      s.selectors [97, 0, 98] = some 16 ∧ cstrAt s.mem 16 = .ok [97] ∧ ¬Interned [.returned [97, 0, 98] 16] s := by
  have hfits : Fits ([], start fun _ => 0) (.registerHostSelector [97, 0, 98] 16) := by
    refine fun _ x _ _ => ⟨?_, ?_⟩
    · rintro ⟨name, sel, hn, -⟩
      cases hn
    · rintro ⟨addr, name, he, -⟩
      cases he
  refine ⟨_, .step .start hfits rfl, rfl, rfl, fun h => ?_⟩
  exact absurd (h.string [97, 0, 98] 16 rfl) (by decide)

end TouchHLE.Objc.Selectors
