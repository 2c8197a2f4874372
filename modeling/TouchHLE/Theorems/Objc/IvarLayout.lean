import TouchHLE.Theorems.Objc.Reconciliation

/-! The layout of instance variables after the classes of a binary have been registered. The offsets that are read are those
    that the moved pointers point to, so they are right only where the memory happens to have them. -/

namespace TouchHLE.Objc.ObjC
open Lib Function
open Environment (readLe)
variable {name : List UInt8} {offset : Nat}

variable {s t : ObjC} {cls d e : Nat} {c c' sup : ClassHostObject}

theorem Layout.origin (h : Layout s t) (hho : t.objects cls = some (.real c')) :
    ∃ c d, s.objects cls = some (.real c) ∧ Shifted c c' d ∧ (Moves s cls d ∨ (d = 0 ∧ ∀ e, ¬Moves s cls e)) := by
  by_cases hmv : ∃ d, Moves s cls d
  · obtain ⟨d, hmv⟩ := hmv
    obtain ⟨c, hreg⟩ := hmv.registered
    obtain ⟨c₁, hho₁, hsh⟩ := h.moved cls c d hreg hmv
    have heq := hho.symm.trans hho₁
    cases heq
    exact ⟨c, d, hreg.host, hsh, .inl hmv⟩
  · have hnot : ∀ e, ¬Moves s cls e := fun e he => hmv ⟨e, he⟩
    exact ⟨c', 0, (h.others cls hnot).symm.trans hho, .refl c', .inr ⟨rfl, hnot⟩⟩

theorem Layout.registered (h : Layout s t) (hreg : Registered s cls c) : ∃ c', Registered t cls c' := by
  have hnmd : ∃ name, t.classes name = some cls := by
    rw [h.classes]
    exact hreg.named
  by_cases hmv : ∃ d, Moves s cls d
  · obtain ⟨d, hmv⟩ := hmv
    obtain ⟨c', hho, -⟩ := h.moved cls c d hreg hmv
    exact ⟨c', hnmd, hho⟩
  · exact ⟨c, hnmd, (h.others cls fun e he => hmv ⟨e, he⟩).trans hreg.host⟩

/-- The class has a named instance variable, for which `object_lookup_ivar` reads the given offset. -/
def IvarAt (s : ObjC) (cls : Nat) (name : List UInt8) (offset : Nat) : Prop :=
  ∃ c ptr align, Registered s cls c ∧ c.getIvar name = some (ptr, align) ∧ ptr ≠ 0 ∧
    ∀ n, s.lookupIvarFrom name (n + 1) cls = .ok (some offset)

theorem lookupIvarFrom_own {ptr align n : Nat} (hho : s.objects cls = some (.real c))
    (hget : c.getIvar name = some (ptr, align)) :
    s.lookupIvarFrom name (n + 1) cls = .ok (some offset) ↔ ptr + 4 ≤ 2 ^ 32 ∧ readLe s.selectors.mem ptr 4 = offset := by
  have hown : s.lookupIvarFrom name (n + 1) cls = readStruct s.selectors.mem ptr 1 >>= fun words => .ok (some (words 0)) := by
    simp [lookupIvarFrom, hho, hget]
  rw [hown, readStruct]
  split
  · rename_i hle
    rw [ok_bind, Except.ok.injEq, Option.some.injEq]
    exact (and_iff_right hle).symm
  · rename_i hgt
    exact iff_of_false (fun h => (by cases h)) fun h => hgt h.1

theorem ivarAt_iff {ptr align : Nat} (hreg : Registered s cls c)
    (hget : c.getIvar name = some (ptr, align)) (hptr : ptr ≠ 0) :
    IvarAt s cls name offset ↔ ptr + 4 ≤ 2 ^ 32 ∧ readLe s.selectors.mem ptr 4 = offset := by
  constructor
  · rintro ⟨c₁, ptr₁, align₁, hreg₁, -, -, hlp⟩
    exact (lookupIvarFrom_own hreg.host hget).mp (hlp 0)
  · intro h
    exact ⟨c, ptr, align, hreg, hget, hptr, fun n => (lookupIvarFrom_own hreg.host hget).mpr h⟩

/-- The variable takes up `size` bytes, inside what is declared for the instances of its class. -/
structure Declares (s : ObjC) (cls : Nat) (name : List UInt8) (offset size : Nat) : Prop where
  ivar : IvarAt s cls name offset
  inside : ∀ c, Registered s cls c → c.instanceStart ≤ offset ∧ offset + size ≤ c.instanceSize

/-- The second class is below the first one, with classes between them whose instances do not end before they start. -/
inductive Below (s : ObjC) (anc : Nat) : Nat → Prop where
  | sub {cls : Nat} {c : ClassHostObject} : Registered s cls c → c.superclass ≠ 0 → c.superclass = anc → Below s anc cls
  | trans {cls : Nat} {c m : ClassHostObject} : Below s anc c.superclass → Registered s c.superclass m →
      m.instanceStart ≤ m.instanceSize → Registered s cls c → c.superclass ≠ 0 → Below s anc cls

structure LaidOut (s t : ObjC) : Prop where
  /-- A class starts after its superclass. -/
  apart : ∀ cls c sup, Registered t cls c → c.superclass ≠ 0 → t.objects c.superclass = some (.real sup) →
    sup.instanceSize ≤ c.instanceStart
  /-- The offsets that are read have moved with the class. -/
  moved : ∀ cls c c', Registered s cls c → Registered t cls c' → ∃ d, c'.instanceStart = c.instanceStart + d ∧
    ∀ name offset, IvarAt s cls name offset → IvarAt t cls name (offset + d)
  inside : ∀ cls c sup name offset size, Registered t cls c → c.superclass ≠ 0 → t.objects c.superclass = some (.real sup) →
    Declares s cls name offset size →
      ∃ offset', IvarAt t cls name offset' ∧ sup.instanceSize ≤ offset' ∧ offset' + size ≤ c.instanceSize
  disjoint : ∀ anc cls name₁ name₂ offset₁ offset₂ size₁ size₂, Below s anc cls → Declares s anc name₁ offset₁ size₁ →
    Declares s cls name₂ offset₂ size₂ →
      ∃ offset₁' offset₂', IvarAt t anc name₁ offset₁' ∧ IvarAt t cls name₂ offset₂' ∧ offset₁' + size₁ ≤ offset₂'

structure Reconcilable (s : ObjC) : Prop where
  /-- A class with a superclass is reached from a class without one, or starts after its superclass already. -/
  reached : ∀ cls c sup, Registered s cls c → c.superclass ≠ 0 → s.objects c.superclass = some (.real sup) →
    (∃ d, Moves s cls d) ∨ sup.instanceSize ≤ c.instanceStart
  /-- If a class moves, the moved offsets stand where the moved pointers point to. -/
  offsets : ∀ cls c d name ptr align, Registered s cls c → Moves s cls d → c.getIvar name = some (ptr, align) → ptr ≠ 0 →
    ptr + 4 ≤ 2 ^ 32 → ptr + d + 4 ≤ 2 ^ 32 ∧ readLe s.selectors.mem (ptr + d) 4 = readLe s.selectors.mem ptr 4 + d

section
variable (h : Layout s t)
include h

theorem Layout.apart (hft : Fits s) (hrec : Reconcilable s) (hreg : Registered t cls c')
    (hsup : c'.superclass ≠ 0) {sup'} (hsu : t.objects c'.superclass = some (.real sup')) :
    sup'.instanceSize ≤ c'.instanceStart := by
  obtain ⟨c, d, hho, hsh, hca⟩ := h.origin hreg.host
  obtain ⟨sup, e, hho', hsh', hca'⟩ := h.origin hsu
  have hnmd : ∃ name, s.classes name = some cls := by
    rw [← h.classes]
    exact hreg.named
  have hrg : Registered s cls c := ⟨hnmd, hho⟩
  rw [hsh.superclass] at hsup hho' hca'
  rw [hsh.start, hsh'.size]
  rcases hca' with hmv' | ⟨rfl, hnot'⟩
  · -- The superclass is reached, so the class is, and moves as far as it has to.
    have hgrw := Moves.sub hrg hsup hho' hmv'
    rcases hca with hmv | ⟨-, hnot⟩
    · rw [hmv.unique hgrw]
      exact le_growth (hft.rounding cls c sup e hrg hho' hmv')
    · exact absurd hgrw (hnot _)
  · have huno : ∀ e, ¬Moves s cls e := by
      intro e hmv
      cases hmv with
      | root hreg₁ hnil =>
        obtain rfl := hrg.unique hreg₁
        exact hsup hnil
      | sub hreg₁ _ _ hmv =>
        obtain rfl := hrg.unique hreg₁
        exact hnot' _ hmv
    rcases hrec.reached cls c sup hrg hsup hho' with ⟨e, hmv⟩ | hle
    · exact absurd hmv (huno e)
    · omega

theorem Layout.moves (hrec : Reconcilable s) (hreg : Registered s cls c) (hreg' : Registered t cls c') :
    ∃ d, Shifted c c' d ∧ ∀ name offset, IvarAt s cls name offset → IvarAt t cls name (offset + d) := by
  obtain ⟨c₁, d, hho, hsh, hca⟩ := h.origin hreg'.host
  have heq := hreg.host.symm.trans hho
  cases heq
  refine ⟨d, hsh, fun name offset hir => ?_⟩
  have hir' := hir
  obtain ⟨c₁, ptr, align, hreg₁, hget, hptr, -⟩ := hir'
  obtain rfl := hreg.unique hreg₁
  obtain ⟨hle, hrd⟩ := (ivarAt_iff hreg hget hptr).mp hir
  refine (ivarAt_iff hreg' (hsh.getIvar hget hptr) (Nat.ne_of_gt (by omega))).mpr ?_
  rw [h.selectors, ← hrd]
  rcases hca with hmv | ⟨rfl, -⟩
  · exact hrec.offsets cls c d name ptr align hreg hmv hget hptr hle
  · exact ⟨hle, rfl⟩

/-- Where the instances of a class start, those of a class above it have ended. -/
theorem Layout.below (hft : Fits s) (hrec : Reconcilable s) {anc : Nat} {a'}
    (hbw : Below s anc cls) (hanc : Registered t anc a') (hreg : Registered t cls c') :
    a'.instanceSize ≤ c'.instanceStart := by
  induction hbw generalizing c' with
  | sub hrg hsup hsu =>
    obtain ⟨d, hsh, -⟩ := h.moves hrec hrg hreg
    subst hsu
    rw [← hsh.superclass] at hsup hanc
    exact h.apart hft hrec hreg hsup hanc.host
  | trans _ hmid hle hrg hsup ih =>
    obtain ⟨m', hmid'⟩ := h.registered hmid
    obtain ⟨d, hsh, -⟩ := h.moves hrec hrg hreg
    obtain ⟨e, hsh', -⟩ := h.moves hrec hmid hmid'
    have habv := ih hmid'
    rw [← hsh.superclass] at hsup hmid'
    have hap := h.apart hft hrec hreg hsup hmid'.host
    rw [hsh'.start] at habv
    rw [hsh'.size] at hap
    omega

/-- An instance variable in the layout: moved with its class, it is inside its instances and after their start. -/
theorem Layout.declared (hrec : Reconcilable s) {size : Nat} (hdcl : Declares s cls name offset size) :
    ∃ c' offset', Registered t cls c' ∧ IvarAt t cls name offset' ∧ c'.instanceStart ≤ offset' ∧
      offset' + size ≤ c'.instanceSize := by
  obtain ⟨c, -, -, hreg, -⟩ := hdcl.ivar
  obtain ⟨c', hreg'⟩ := h.registered hreg
  obtain ⟨d, hsh, hmo⟩ := h.moves hrec hreg hreg'
  obtain ⟨hlo, hhi⟩ := hdcl.inside c hreg
  refine ⟨c', offset + d, hreg', hmo name offset hdcl.ivar, ?_, ?_⟩
  · rw [hsh.start]
    exact Nat.add_le_add_right hlo d
  · rw [hsh.size]
    omega

theorem Layout.laidOut (hft : Fits s) (hrec : Reconcilable s) : LaidOut s t := by
  refine ⟨fun cls c sup hreg hsup hsu => h.apart hft hrec hreg hsup hsu, fun cls c c' hreg hreg' => ?_, ?_, ?_⟩
  · obtain ⟨d, hsh, hmo⟩ := h.moves hrec hreg hreg'
    exact ⟨d, hsh.start, hmo⟩
  · intro cls c sup name offset size hreg hsup hsu hdcl
    obtain ⟨c', offset', hreg', hir, hlo, hhi⟩ := h.declared hrec hdcl
    obtain rfl := hreg.unique hreg'
    exact ⟨offset', hir, Nat.le_trans (h.apart hft hrec hreg hsup hsu) hlo, hhi⟩
  · intro anc cls name₁ name₂ offset₁ offset₂ size₁ size₂ hbw hdcl₁ hdcl₂
    obtain ⟨a', offset₁', hanc, hir₁, -, hhi⟩ := h.declared hrec hdcl₁
    obtain ⟨c', offset₂', hreg, hir₂, hlo, -⟩ := h.declared hrec hdcl₂
    have hbtw := h.below hft hrec hbw hanc hreg
    exact ⟨offset₁', offset₂', hir₁, hir₂, Nat.le_trans hhi (Nat.le_trans hbtw hlo)⟩

theorem Layout.reconcilable (hld : LaidOut s t) : Reconcilable s := by
  refine ⟨fun cls c sup hreg hsup hsu => ?_, fun cls c d name ptr align hreg hmv hget hptr hle => ?_⟩
  · by_cases hmv : ∃ d, Moves s cls d
    · exact .inl hmv
    · -- Neither the class nor its superclass is reached, so both are as they were.
      have hcla := h.others cls fun e he => hmv ⟨e, he⟩
      have hsu' := h.others c.superclass fun e he => hmv ⟨_, .sub hreg hsup hsu he⟩
      have hnmd : ∃ name, t.classes name = some cls := by
        rw [h.classes]
        exact hreg.named
      exact .inr (hld.apart cls c sup ⟨hnmd, hcla.trans hreg.host⟩ hsup (hsu'.trans hsu))
  · obtain ⟨c', hreg'⟩ := h.registered hreg
    obtain ⟨c₁, hho₁, hsh⟩ := h.moved cls c d hreg hmv
    have heq := hreg'.host.symm.trans hho₁
    cases heq
    obtain ⟨d', hsr, hmo⟩ := hld.moved cls c c' hreg hreg'
    obtain rfl : d = d' := Nat.add_left_cancel (hsh.start.symm.trans hsr)
    have hir := hmo name _ ((ivarAt_iff hreg hget hptr).mpr ⟨hle, rfl⟩)
    have hrd := (ivarAt_iff hreg' (hsh.getIvar hget hptr) (Nat.ne_of_gt (by omega))).mp hir
    rw [h.selectors] at hrd
    exact hrd

end

/-! A binary with a class `A` below `NSObject`, compiled against a root class without instance variables: the instances of
    `A` start at 0 and have a variable `x` there, whose offset is in the word at 240. -/

/-- The list of classes is at 16, the class at 32, its metaclass at 64, and the list of variables at 200. -/
def binaryMem (x : Nat) : UInt8 :=
  (([(16, 32), (32, 64), (36, 8), (48, 96), (64, 12), (68, 12), (80, 136), (104, 4), (112, 192), (124, 200), (140, 20),
    (144, 20), (152, 192), (192, 65), (196, 120), (200, 20), (204, 1), (208, 240), (212, 196), (220, 4), (224, 4)] :
      List (Nat × UInt8)).lookup x).getD 0

def linked : ObjC where
  selectors := .start binaryMem
  objects x :=
    if x = 8 then some (.real ⟨nsObject, false, 0, [], 4, 4, .notInitialized⟩)
    else if x = 12 then some (.real ⟨nsObject, true, 8, [], 4, 4, .notInitialized⟩)
    else none
  classes name := if name = nsObject then some 8 else none

def classA : ClassHostObject := ⟨[65], false, 8, [([120], (240, 4))], 0, 4, .notInitialized⟩

def declared : ObjC where
  selectors := .start binaryMem
  objects := update (update linked.objects 32 (some (.real classA))) 64
    (some (.real ⟨[65], true, 12, [], 20, 20, .notInitialized⟩))
  classes := update linked.classes [65] (some 32)

def final : ObjC := { declared with objects := update declared.objects 32 (some (.real (growBy classA 4))) }

theorem readClasses_linked : linked.readClasses 16 4 = .ok declared := by with_unfolding_all rfl

theorem registerBinClasses_linked :
    linked.registerBinClasses (some (16, 4)) [(nsObject, 8), ([65], 32)] = .ok final := by with_unfolding_all rfl

theorem lists_declared : Lists declared [(nsObject, 8), ([65], 32)] := by
  intro name cls
  have hne : nsObject ≠ [65] := by decide +kernel
  simp only [declared, linked, update_apply, List.mem_cons, Prod.mk.injEq, List.not_mem_nil, or_false]
  by_cases hA : name = [65]
  · subst hA
    simp [hne.symm, eq_comm]
  · by_cases hns : name = nsObject
    · subst hns
      simp [hne, eq_comm]
    · simp [hA, hns]

theorem registered_declared (h : Registered declared cls c) :
    (cls = 8 ∧ c = ⟨nsObject, false, 0, [], 4, 4, .notInitialized⟩) ∨ (cls = 32 ∧ c = classA) := by
  obtain ⟨⟨name, hnm⟩, hho⟩ := h
  have hmem := (lists_declared name cls).mpr hnm
  simp only [List.mem_cons, Prod.mk.injEq, List.not_mem_nil, or_false] at hmem
  rcases hmem with ⟨-, rfl⟩ | ⟨-, rfl⟩
  · have heq := hho.symm.trans (rfl : declared.objects 8 = some (.real ⟨nsObject, false, 0, [], 4, 4, .notInitialized⟩))
    cases heq
    exact .inl ⟨rfl, rfl⟩
  · have heq := hho.symm.trans (rfl : declared.objects 32 = some (.real classA))
    cases heq
    exact .inr ⟨rfl, rfl⟩

theorem registered_A : Registered declared 32 classA := ⟨⟨[65], rfl⟩, rfl⟩

theorem moves_nsObject : Moves declared 8 0 := .root (c := ⟨nsObject, false, 0, [], 4, 4, .notInitialized⟩) ⟨⟨nsObject, by
  decide +kernel⟩, rfl⟩ rfl

theorem moves_A : Moves declared 32 4 := .sub registered_A (by decide) rfl moves_nsObject

theorem fits_declared : Fits declared := by
  refine ⟨fun cls c d hreg hmv => ?_, fun cls c d hreg hmv => ?_, fun cls c d hreg hmv e he => ?_,
    fun cls c sup d hreg hsu hmv => ?_⟩
  · rcases registered_declared hreg with ⟨rfl, rfl⟩ | ⟨rfl, rfl⟩
    · rw [hmv.unique moves_nsObject]
      decide
    · rw [hmv.unique moves_A]
      decide
  · rcases registered_declared hreg with ⟨rfl, rfl⟩ | ⟨rfl, rfl⟩
    · rw [hmv.unique moves_nsObject]
      decide
    · rw [hmv.unique moves_A]
      decide
  · rcases registered_declared hreg with ⟨rfl, rfl⟩ | ⟨rfl, rfl⟩
    · cases he
    · rw [hmv.unique moves_A, List.mem_singleton.mp he]
      decide
  · rcases registered_declared hreg with ⟨rfl, rfl⟩ | ⟨rfl, rfl⟩
    · cases hsu
    · rw [hmv.unique moves_nsObject]
      cases hsu
      decide

theorem registerBinClasses_returns_A :
    ∃ t, linked.registerBinClasses (some (16, 4)) [(nsObject, 8), ([65], 32)] = .ok t := by
  refine registerBinClasses_returns (fun name cls h => ?_) readClasses_linked lists_declared (by decide +kernel) fits_declared
    (by with_unfolding_all rfl)
  obtain ⟨rfl, rfl⟩ : name = nsObject ∧ 8 = cls := by simpa [linked] using h
  exact ⟨_, rfl, rfl⟩

/-- The classes of a binary are laid out exactly when the classes that need to be moved are reached and the moved pointers
    point to the moved offsets. -/
theorem laidOut_iff_reconcilable {s₀ : ObjC} {addr size : Nat} {order : List (List UInt8 × Nat)}
    (hread : s₀.readClasses addr size = .ok s) (horder : Lists s order) (hfits : Fits s)
    (hcall : s₀.registerBinClasses (some (addr, size)) order = .ok t) : LaidOut s t ↔ Reconcilable s := by
  have hlayout : Layout s t := by
    simp only [registerBinClasses, hread, ok_bind] at hcall
    obtain ⟨g, hg, hwalk⟩ := bind_eq_ok.mp hcall
    exact layout_of_walk (inheritance_ok horder hg) hfits hwalk
  exact ⟨hlayout.reconcilable, hlayout.laidOut hfits⟩

/-- The class `A` of the binary. -/
theorem laidOut_iff_reconcilable_A : ∃ s₀ s t : ObjC, s₀.readClasses 16 4 = .ok s ∧
    s₀.registerBinClasses (some (16, 4)) [(nsObject, 8), ([65], 32)] = .ok t ∧ (LaidOut s t ↔ Reconcilable s) :=
  ⟨linked, declared, final, readClasses_linked, registerBinClasses_linked,
    laidOut_iff_reconcilable readClasses_linked lists_declared fits_declared registerBinClasses_linked⟩

/-- The instances of `A` now start at 4, but the offset of `x` is read from the next word and is still 0. -/
theorem offset_not_moved : ∃ s₀ s t : ObjC, s₀.readClasses 16 4 = .ok s ∧ Lists s [(nsObject, 8), ([65], 32)] ∧ Fits s ∧
    s₀.registerBinClasses (some (16, 4)) [(nsObject, 8), ([65], 32)] = .ok t ∧
    Registered s 32 classA ∧ s.lookupIvarFrom [120] 1 32 = .ok (some 0) ∧
    Registered t 32 (growBy classA 4) ∧ t.lookupIvarFrom [120] 1 32 = .ok (some 0) ∧ ¬LaidOut s t := by
  have hreg : Registered final 32 (growBy classA 4) := ⟨⟨[65], rfl⟩, rfl⟩
  refine ⟨linked, declared, final, readClasses_linked, lists_declared, fits_declared, registerBinClasses_linked, registered_A,
    rfl, hreg, rfl, fun h => ?_⟩
  obtain ⟨d, hstart, hmoved⟩ := h.moved 32 classA (growBy classA 4) registered_A hreg
  have hd : d = 4 := by
    have hstart' : 4 = 0 + d := hstart
    omega
  obtain ⟨-, -, -, -, -, -, hlookup⟩ := hmoved [120] 0 ⟨classA, 240, 4, registered_A, rfl, by decide, fun n => rfl⟩
  have hread : final.lookupIvarFrom [120] 1 32 = .ok (some 0) := rfl
  have heq := hread.symm.trans (hlookup 0)
  rw [hd] at heq
  cases heq

end TouchHLE.Objc.ObjC
