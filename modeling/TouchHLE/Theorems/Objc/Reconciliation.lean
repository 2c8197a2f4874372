import TouchHLE.Objc.Classes

/-! The reconciliation of classes. Growth of a class moves all its descendants that are reached from a class without
    superclass: their start, their size and the pointers to the offsets of their instance variables. -/

namespace TouchHLE.Objc.ObjC
open Lib List Option Function

variable {x obj addr size : Nat} {name : List UInt8} {rest order : List (List UInt8 × Nat)}
variable {p : ClassHostObject → Prop} {g g' : Inheritance} {done queue : List Nat} {host : HostObject}

theorem or_le_add (a b : Nat) : a ||| b ≤ a + b := by
  induction a using Nat.strong_induction_on generalizing b with
  | _ a ih =>
    rcases Nat.eq_zero_or_pos a with rfl | hpos
    · simp
    · have hdiv : (a ||| b) / 2 ≤ a / 2 + b / 2 := by
        rw [Nat.or_div_two]
        exact ih (a / 2) (by omega) (b / 2)
      have hmod : (a ||| b) % 2 = 1 ↔ a % 2 = 1 ∨ b % 2 = 1 := Nat.or_mod_two_eq_one
      omega

theorem le_and_compl_add {mask : Nat} (hx : x < 2 ^ 32) (hmsk : mask < 2 ^ 32) :
    x ≤ (x &&& (2 ^ 32 - (mask + 1))) + mask := by
  have hsp : (x &&& (2 ^ 32 - (mask + 1))) ||| (x &&& mask) = x := by
    refine Nat.eq_of_testBit_eq fun i => ?_
    rw [Nat.testBit_or, Nat.testBit_and, Nat.testBit_and, Nat.testBit_two_pow_sub_succ hmsk]
    rcases Nat.lt_or_ge i 32 with hi | hi
    · simp only [hi, decide_true, Bool.true_and]
      cases x.testBit i <;> cases mask.testBit i <;> rfl
    · have hbit : x.testBit i = false :=
        Nat.testBit_lt_two_pow (Nat.lt_of_lt_of_le hx (Nat.pow_le_pow_right (by decide) hi))
      simp [hbit]
  calc x = (x &&& (2 ^ 32 - (mask + 1))) ||| (x &&& mask) := hsp.symm
    _ ≤ (x &&& (2 ^ 32 - (mask + 1))) + (x &&& mask) := or_le_add _ _
    _ ≤ (x &&& (2 ^ 32 - (mask + 1))) + mask := Nat.add_le_add_left Nat.and_le_right _

theorem maxAlignment_pos (ivars : List (List UInt8 × (Nat × Nat))) : 0 < maxAlignment ivars := by
  have hfld : ∀ m, 0 < m → 0 < ivars.foldl (fun m e => if e.2.1 = 0 then m else max m e.2.2) m := by
    induction ivars with
    | nil => exact fun m hm => hm
    | cons e es ih =>
      intro m hm
      rw [foldl_cons]
      split
      · exact ih m hm
      · exact ih _ (Nat.lt_of_lt_of_le hm (Nat.le_max_left _ _))
  exact hfld 1 Nat.one_pos

theorem le_reconciledDiff {c} {diff : Nat} (h : diff + (maxAlignment c.ivars - 1) < 2 ^ 32) :
    diff ≤ reconciledDiff c diff := by
  unfold reconciledDiff
  split
  · exact Nat.le_refl diff
  · have hpos := maxAlignment_pos c.ivars
    have hbts := le_and_compl_add h (Nat.lt_of_le_of_lt (Nat.le_add_left _ _) h)
    rw [Nat.sub_add_cancel hpos] at hbts
    rw [alignDiff, Nat.mod_eq_of_lt h]
    omega

structure Registered (s : ObjC) (cls : Nat) (c : ClassHostObject) : Prop where
  named : ∃ name, s.classes name = some cls
  host : s.objects cls = some (.real c)

def growth (superSize : Nat) (c : ClassHostObject) : Nat :=
  if c.instanceStart < superSize then reconciledDiff c (superSize - c.instanceStart) else 0

/-- The class is reached from one without superclass, and moves by `d` if each class on the way moves as far as its
    superclass requires. -/
inductive Moves (s : ObjC) : Nat → Nat → Prop where
  | root {cls : Nat} {c : ClassHostObject} : Registered s cls c → c.superclass = 0 → Moves s cls 0
  | sub {cls : Nat} {c sup : ClassHostObject} {d : Nat} : Registered s cls c → c.superclass ≠ 0 →
      s.objects c.superclass = some (.real sup) → Moves s c.superclass d → Moves s cls (growth (sup.instanceSize + d) c)

variable {s t : ObjC} {cls d e : Nat} {c c' sup : ClassHostObject}

theorem Registered.unique (h : Registered s cls c) (h' : Registered s cls c') : c = c' := by
  have heq := h.host.symm.trans h'.host
  cases heq
  rfl

theorem Moves.registered (h : Moves s cls d) : ∃ c, Registered s cls c := by
  cases h with
  | root hreg _ | sub hreg _ _ _ => exact ⟨_, hreg⟩

theorem Moves.unique (h : Moves s cls d) (h' : Moves s cls e) : d = e := by
  induction h generalizing e with
  | root hreg hnil =>
    cases h' with
    | root _ _ => rfl
    | sub hreg' hsup _ _ =>
      obtain rfl := hreg.unique hreg'
      exact absurd hnil hsup
  | sub hreg hsup hho _ ih =>
    cases h' with
    | root hreg' hnil =>
      obtain rfl := hreg.unique hreg'
      exact absurd hnil hsup
    | sub hreg' _ hho' hmv =>
      obtain rfl := hreg.unique hreg'
      have heq := hho.symm.trans hho'
      cases heq
      rw [ih hmv]

/-- Sums of sizes, offsets and pointers stay below 2³². -/
structure Fits (s : ObjC) : Prop where
  start : ∀ cls c d, Registered s cls c → Moves s cls d → c.instanceStart + d < 2 ^ 32
  size : ∀ cls c d, Registered s cls c → Moves s cls d → c.instanceSize + d < 2 ^ 32
  pointers : ∀ cls c d, Registered s cls c → Moves s cls d → ∀ e ∈ c.ivars, e.2.1 + d < 2 ^ 32
  rounding : ∀ cls c sup d, Registered s cls c → s.objects c.superclass = some (.real sup) → Moves s c.superclass d →
    sup.instanceSize + d - c.instanceStart + (maxAlignment c.ivars - 1) < 2 ^ 32

/-- A class starts where its superclass ends, or later. -/
theorem le_growth {superSize : Nat} (h : superSize - c.instanceStart + (maxAlignment c.ivars - 1) < 2 ^ 32) :
    superSize ≤ c.instanceStart + growth superSize c := by
  unfold growth
  split
  · have hdif := le_reconciledDiff h
    omega
  · omega

structure Shifted (c c' : ClassHostObject) (d : Nat) : Prop where
  superclass : c'.superclass = c.superclass
  start : c'.instanceStart = c.instanceStart + d
  size : c'.instanceSize = c.instanceSize + d
  ivars : c'.ivars = c.ivars.map fun e => if e.2.1 = 0 then e else (e.1, e.2.1 + d, e.2.2)

theorem shifted_growBy (hft : Fits s) (hreg : Registered s cls c) (hmv : Moves s cls d) : Shifted c (growBy c d) d := by
  refine ⟨rfl, Nat.mod_eq_of_lt (hft.start cls c d hreg hmv), Nat.mod_eq_of_lt (hft.size cls c d hreg hmv), ?_⟩
  refine map_congr_left fun e he => ?_
  rw [moveIvar, Nat.mod_eq_of_lt (hft.pointers cls c d hreg hmv e he)]

theorem Shifted.refl (c : ClassHostObject) : Shifted c c 0 := by
  refine ⟨rfl, rfl, rfl, ?_⟩
  have hid : (fun e : List UInt8 × (Nat × Nat) => if e.2.1 = 0 then e else (e.1, e.2.1 + 0, e.2.2)) = id := by
    funext e
    simp
  rw [hid, List.map_id]

theorem Shifted.getIvar (h : Shifted c c' d) {ptr align : Nat} (hget : c.getIvar name = some (ptr, align))
    (hptr : ptr ≠ 0) : c'.getIvar name = some (ptr + d, align) := by
  obtain ⟨e, he, heq⟩ := map_eq_some_iff.mp hget
  have hnm : (fun e : List UInt8 × (Nat × Nat) => decide (e.1 = name)) ∘
      (fun e => if e.2.1 = 0 then e else (e.1, e.2.1 + d, e.2.2)) = fun e => decide (e.1 = name) := by
    funext e
    simp only [Function.comp_apply]
    split <;> rfl
  rw [ClassHostObject.getIvar, h.ivars, find?_map, hnm, he, map_some, map_some, heq, if_neg hptr]

/-! ### The inverted inheritance -/

/-- What the second pass is to find: the classes without superclass, and the subclasses of each class. -/
structure Inverts (s : ObjC) (g : Inheritance) : Prop where
  roots : ∀ cls, cls ∈ g.queue ↔ ∃ c, Registered s cls c ∧ c.superclass = 0
  subclasses : ∀ cls super, cls ∈ g.inverted super ↔ ∃ c, Registered s cls c ∧ c.superclass ≠ 0 ∧ c.superclass = super

def Later (s : ObjC) (rest : List (List UInt8 × Nat)) (cls : Nat) (p : ClassHostObject → Prop) : Prop :=
  ∃ name c, (name, cls) ∈ rest ∧ s.objects cls = some (.real c) ∧ p c

theorem later_cons {e} :
    Later s (e :: rest) cls p ↔ (cls = e.2 ∧ ∃ c, s.objects cls = some (.real c) ∧ p c) ∨ Later s rest cls p := by
  constructor
  · rintro ⟨name, c, hmem, hho, hp⟩
    rcases mem_cons.mp hmem with rfl | hmem
    · exact .inl ⟨rfl, c, hho, hp⟩
    · exact .inr ⟨name, c, hmem, hho, hp⟩
  · rintro (⟨rfl, c, hho, hp⟩ | ⟨name, c, hmem, hho, hp⟩)
    · exact ⟨e.1, c, mem_cons_self, hho, hp⟩
    · exact ⟨name, c, mem_cons_of_mem e hmem, hho, hp⟩

structure Collects (s : ObjC) (order rest : List (List UInt8 × Nat)) (g : Inheritance) : Prop where
  roots : ∀ cls, (cls ∈ g.queue ∨ Later s rest cls fun c => c.superclass = 0) ↔ Later s order cls fun c => c.superclass = 0
  subclasses : ∀ cls super, (cls ∈ g.inverted super ∨ Later s rest cls fun c => c.superclass ≠ 0 ∧ c.superclass = super) ↔
    Later s order cls fun c => c.superclass ≠ 0 ∧ c.superclass = super

theorem foundName_ok (h : foundName name g = .ok g') : g'.queue = g.queue ∧ g'.inverted = g.inverted := by
  unfold foundName at h
  split at h
  · split at h
    · cases h
    · cases h
      exact ⟨rfl, rfl⟩
  · cases h
    exact ⟨rfl, rfl⟩

theorem invert_ok {e} (h : s.invert g e = .ok g') :
    (∃ c, s.objects e.2 = some (.real c) ∧ c.superclass = 0 ∧ e.2 ∉ g.queue ∧ g'.queue = g.queue ++ [e.2] ∧
        g'.inverted = g.inverted) ∨
      (∃ c, s.objects e.2 = some (.real c) ∧ c.superclass ≠ 0 ∧ g'.queue = g.queue ∧
        g'.inverted = update g.inverted c.superclass (g.inverted c.superclass ++ [e.2])) ∨
      ((∀ c, s.objects e.2 ≠ some (.real c)) ∧ g'.queue = g.queue ∧ g'.inverted = g.inverted) := by
  obtain ⟨g₁, hnm, h⟩ := bind_eq_ok.mp h
  obtain ⟨hqu, hiv⟩ := foundName_ok hnm
  rw [← hqu, ← hiv]
  split at h
  · cases h
  · rename_i c hho
    split at h
    · rename_i hsup
      cases h
      exact .inr (.inl ⟨c, hho, hsup, rfl, rfl⟩)
    · rename_i hsup
      split at h
      · cases h
      · rename_i hfh
        cases h
        exact .inl ⟨c, hho, not_not.mp hsup, hfh, rfl, rfl⟩
  · rename_i host hrea hho
    cases h
    refine .inr (.inr ⟨fun c hc => ?_, rfl, rfl⟩)
    exact hrea c (some_inj.mp (hho.symm.trans hc))

theorem mem_update_append {inverted} {p q y : Nat} :
    y ∈ update inverted p (inverted p ++ [x]) q ↔ y ∈ inverted q ∨ (y = x ∧ q = p) := by
  rcases eq_or_ne q p with rfl | hne
  · rw [update_self, mem_append, mem_singleton]
    tauto
  · rw [update_of_ne hne]
    tauto

theorem Collects.round {e}
    (h : Collects s order (e :: rest) g) (hro : s.invert g e = .ok g') : Collects s order rest g' := by
  rcases invert_ok hro with ⟨c, hho, hnil, -, hqu, hiv⟩ | ⟨c, hho, hsup, hqu, hiv⟩ |
    ⟨hfak, hqu, hiv⟩
  · refine ⟨fun cls => ?_, fun cls super => ?_⟩
    · rw [← h.roots cls, later_cons, hqu, mem_append, mem_singleton]
      constructor
      · rintro ((hold | rfl) | hlr)
        · exact .inl hold
        · exact .inr (.inl ⟨rfl, c, hho, hnil⟩)
        · exact .inr (.inr hlr)
      · rintro (hold | ⟨rfl, -⟩ | hlr)
        · exact .inl (.inl hold)
        · exact .inl (.inr rfl)
        · exact .inr hlr
    · rw [← h.subclasses cls super, later_cons, hiv]
      refine or_congr_right ⟨.inr, ?_⟩
      rintro (⟨rfl, c', hho', hsup, -⟩ | hlr)
      · have heq := hho.symm.trans hho'
        cases heq
        exact absurd hnil hsup
      · exact hlr
  · refine ⟨fun cls => ?_, fun cls super => ?_⟩
    · rw [← h.roots cls, later_cons, hqu]
      refine or_congr_right ⟨.inr, ?_⟩
      rintro (⟨rfl, c', hho', hnil⟩ | hlr)
      · have heq := hho.symm.trans hho'
        cases heq
        exact absurd hnil hsup
      · exact hlr
    · rw [← h.subclasses cls super, later_cons, hiv, mem_update_append]
      constructor
      · rintro ((hold | ⟨rfl, rfl⟩) | hlr)
        · exact .inl hold
        · exact .inr (.inl ⟨rfl, c, hho, hsup, rfl⟩)
        · exact .inr (.inr hlr)
      · rintro (hold | ⟨rfl, c', hho', -, rfl⟩ | hlr)
        · exact .inl (.inl hold)
        · have heq := hho.symm.trans hho'
          cases heq
          exact .inl (.inr ⟨rfl, rfl⟩)
        · exact .inr hlr
  · have hnot : ∀ (cls : Nat) (p : ClassHostObject → Prop), ¬(cls = e.2 ∧ ∃ c, s.objects cls = some (.real c) ∧ p c) := by
      rintro cls p ⟨rfl, c, hho, -⟩
      exact hfak c hho
    refine ⟨fun cls => ?_, fun cls super => ?_⟩
    · rw [← h.roots cls, later_cons, hqu, or_iff_right (hnot cls _)]
    · rw [← h.subclasses cls super, later_cons, hiv, or_iff_right (hnot cls _)]

def Lists (s : ObjC) (order : List (List UInt8 × Nat)) : Prop := ∀ name cls, (name, cls) ∈ order ↔ s.classes name = some cls

theorem Lists.later (h : Lists s order) : Later s order cls p ↔ ∃ c, Registered s cls c ∧ p c := by
  constructor
  · rintro ⟨name, c, hmem, hho, hp⟩
    exact ⟨c, ⟨⟨name, (h name cls).mp hmem⟩, hho⟩, hp⟩
  · rintro ⟨c, ⟨⟨name, hnm⟩, hho⟩, hp⟩
    exact ⟨name, c, (h name cls).mpr hnm, hho, hp⟩

theorem inheritance_ok (hod : Lists s order) (h : s.inheritance order = .ok g) : Inverts s g := by
  obtain ⟨g', hfld, heq⟩ := bind_eq_ok.mp h
  split at heq
  · cases heq
    have hcol : Collects s order [] g := by
      refine foldlM_invariant (Collects s order) (fun e rest g g' hg => hg.round) ?_ hfld
      exact ⟨fun cls => or_iff_right not_mem_nil, fun cls super => or_iff_right not_mem_nil⟩
    have hno : ∀ cls p, ¬Later s [] cls p := by
      rintro cls p ⟨name, c, hmem, -⟩
      exact not_mem_nil hmem
    refine ⟨fun cls => ?_, fun cls super => ?_⟩
    · rw [← hod.later, ← hcol.roots cls, or_iff_left (hno cls _)]
    · rw [← hod.later, ← hcol.subclasses cls super, or_iff_left (hno cls _)]
  · cases heq

section
variable (hho : s.objects cls = some (.real c))
include hho

theorem reconcile_root (hnil : c.superclass = 0) : s.reconcile cls = .ok s := by
  have hnee : s.needIvarReconciliation cls = .ok (false, 0) := by
    simp [needIvarReconciliation, hho, hnil]
  rw [reconcile, hnee]
  rfl

theorem reconcile_apart (hsup : c.superclass ≠ 0)
    (hsu : s.objects c.superclass = some (.real sup)) (hapa : sup.instanceSize ≤ c.instanceStart) :
    s.reconcile cls = .ok s := by
  have hnee : s.needIvarReconciliation cls = .ok (false, 0) := by
    simp [needIvarReconciliation, hho, hsu, if_neg (Nat.not_lt.mpr hapa)]
  rw [reconcile, hnee]
  rfl

theorem reconcile_grow (hsup : c.superclass ≠ 0)
    (hsu : s.objects c.superclass = some (.real sup)) (hlt : c.instanceStart < sup.instanceSize) :
    s.reconcile cls =
      .ok { s with objects := update s.objects cls (some (.real (growBy c (growth sup.instanceSize c)))) } := by
  have hnee : s.needIvarReconciliation cls = .ok (true, sup.instanceSize - c.instanceStart) := by
    simp [needIvarReconciliation, hho, hsu, if_neg hsup, if_pos hlt]
  rw [reconcile, hnee, ok_bind, growth, if_pos hlt]
  simp [hho]

end

theorem reconcile_ne_late (s : ObjC) (cls : Nat) : s.reconcile cls ≠ .error .late := by
  have hnee : s.needIvarReconciliation cls ≠ .error .late := by
    unfold needIvarReconciliation
    split
    · exact fun h => (by cases h)
    · split
      · exact fun h => (by cases h)
      · split
        · exact fun h => (by cases h)
        · split <;> exact fun h => (by cases h)
        · exact fun h => (by cases h)
    · exact fun h => (by cases h)
  intro h
  rcases bind_eq_error.mp h with hfs | ⟨r, -, hrs⟩
  · exact hnee hfs
  · split at hrs
    · split at hrs <;> cases hrs
    · cases hrs

/-- The classes visited so far have moved and the others are as they were. Whatever is visited or queued is a class without
    superclass, or has a superclass that has been visited. -/
structure Reconciling (s : ObjC) (g : Inheritance) (done queue : List Nat) (t : ObjC) : Prop where
  selectors : t.selectors = s.selectors
  classes : t.classes = s.classes
  moved : ∀ cls ∈ done, ∀ c d, Registered s cls c → Moves s cls d → ∃ c', t.objects cls = some (.real c') ∧ Shifted c c' d
  others : ∀ cls, cls ∉ done → t.objects cls = s.objects cls
  moves : ∀ cls ∈ done ++ queue, ∃ d, Moves s cls d
  origin : ∀ cls ∈ done ++ queue, cls ∈ g.queue ∨ ∃ super ∈ done, cls ∈ g.inverted super
  roots : ∀ cls ∈ g.queue, cls ∈ done ++ queue
  closed : ∀ super ∈ done, ∀ cls ∈ g.inverted super, cls ∈ done ++ queue

/-- What the next class of the queue finds: it has no superclass, or one that has moved as far as it will. -/
theorem Reconciling.superclass (hinv : Inverts s g)
    (h : Reconciling s g done (cls :: queue) t) (hreg : Registered s cls c) :
    (c.superclass = 0 ∧ Moves s cls 0) ∨ (c.superclass ≠ 0 ∧ c.superclass ∈ done ∧ ∃ sup sup' e,
      s.objects c.superclass = some (.real sup) ∧ t.objects c.superclass = some (.real sup') ∧ Shifted sup sup' e ∧
      Moves s c.superclass e ∧ Moves s cls (growth sup'.instanceSize c)) := by
  rcases h.origin cls (mem_append_right _ mem_cons_self) with hrt | ⟨super, hdn, hsub⟩
  · obtain ⟨c₁, hreg₁, hnil⟩ := (hinv.roots cls).mp hrt
    obtain rfl := hreg₁.unique hreg
    exact .inl ⟨hnil, .root hreg hnil⟩
  · obtain ⟨c₁, hreg₁, hsup, rfl⟩ := (hinv.subclasses cls super).mp hsub
    obtain rfl := hreg₁.unique hreg
    obtain ⟨e, hmv⟩ := h.moves _ (mem_append_left _ hdn)
    obtain ⟨sup, hsu⟩ := hmv.registered
    obtain ⟨sup', hho', hsh⟩ := h.moved _ hdn sup e hsu hmv
    refine .inr ⟨hsup, hdn, sup, sup', e, hsu.host, hho', hsh, hmv, ?_⟩
    rw [hsh.size]
    exact .sub hreg hsup hsu.host hmv

structure Visited (t u : ObjC) (cls : Nat) (c : ClassHostObject) (d : Nat) : Prop where
  selectors : u.selectors = t.selectors
  classes : u.classes = t.classes
  others : ∀ other, other ≠ cls → u.objects other = t.objects other
  moved : ∃ c', u.objects cls = some (.real c') ∧ Shifted c c' d

theorem Visited.same (hho : t.objects cls = some (.real c')) (hsh : Shifted c c' d) : Visited t t cls c d :=
  ⟨rfl, rfl, fun _ _ => rfl, c', hho, hsh⟩

theorem reconcile_visits (hinv : Inverts s g) (hft : Fits s)
    (h : Reconciling s g done (cls :: queue) t) (hreg : Registered s cls c) (hmv : Moves s cls d) :
    ∃ u, t.reconcile cls = .ok u ∧ Visited t u cls c d := by
  by_cases hdn : cls ∈ done
  · -- A class that has been visited does not move again.
    obtain ⟨c', hho', hsh⟩ := h.moved cls hdn c d hreg hmv
    rcases h.superclass hinv hreg with ⟨hnil, -⟩ | ⟨hsup, -, sup, sup', e, hsu, hsu', hsh', hmv', hgrw⟩
    · exact ⟨t, reconcile_root hho' (hsh.superclass.trans hnil), .same hho' hsh⟩
    · have hd := hmv.unique hgrw
      have hle := le_growth (hsh'.size ▸ hft.rounding cls c sup e hreg hsu hmv')
      rw [← hd, ← hsh.start] at hle
      rw [← hsh.superclass] at hsup hsu'
      exact ⟨t, reconcile_apart hho' hsup hsu' hle, .same hho' hsh⟩
  · have hho : t.objects cls = some (.real c) := (h.others cls hdn).trans hreg.host
    rcases h.superclass hinv hreg with ⟨hnil, hrt⟩ | ⟨hsup, -, sup, sup', e, hsu, hsu', hsh', hmv', hgrw⟩
    · obtain rfl := hmv.unique hrt
      exact ⟨t, reconcile_root hho hnil, .same hho (.refl c)⟩
    · obtain rfl := hmv.unique hgrw
      rcases Nat.lt_or_ge c.instanceStart sup'.instanceSize with hlt | hge
      · refine ⟨_, reconcile_grow hho hsup hsu' hlt, rfl, rfl, fun other hne => update_of_ne hne _ _, _,
          update_self _ _ _, shifted_growBy hft hreg hmv⟩
      · rw [growth, if_neg (Nat.not_lt.mpr hge)]
        exact ⟨t, reconcile_apart hho hsup hsu' hge, .same hho (.refl c)⟩

theorem Reconciling.round {u} (hinv : Inverts s g) (hft : Fits s)
    (h : Reconciling s g done (cls :: queue) t) (hcl : t.reconcile cls = .ok u) :
    Reconciling s g (done ++ [cls]) (queue ++ g.inverted cls) u := by
  obtain ⟨d₀, hmv₀⟩ := h.moves cls (mem_append_right _ mem_cons_self)
  obtain ⟨c₀, hreg₀⟩ := hmv₀.registered
  have hvii : ∀ c d, Registered s cls c → Moves s cls d → Visited t u cls c d := by
    intro c d hreg hmv
    obtain ⟨u', hcl', hvst⟩ := reconcile_visits hinv hft h hreg hmv
    have heq := hcl.symm.trans hcl'
    cases heq
    exact hvst
  have hvst := hvii c₀ d₀ hreg₀ hmv₀
  have hmem : ∀ x, x ∈ done ++ [cls] ++ (queue ++ g.inverted cls) ↔ x ∈ done ++ cls :: queue ∨ x ∈ g.inverted cls := fun x => by
    simp only [mem_append, mem_cons, not_mem_nil, or_false]
    tauto
  refine ⟨hvst.selectors.trans h.selectors, hvst.classes.trans h.classes, fun x hx c d hreg hmv => ?_, fun x hx => ?_, fun x hx => ?_,
    fun x hx => ?_, fun x hx => (hmem x).mpr (.inl (h.roots x hx)), fun super hsu x hx => ?_⟩
  · by_cases heq : x = cls
    · subst heq
      exact (hvii c d hreg hmv).moved
    · rcases mem_append.mp hx with hdn | hls
      · rw [hvst.others x heq]
        exact h.moved x hdn c d hreg hmv
      · exact absurd (mem_singleton.mp hls) heq
  · rw [mem_append, mem_singleton, not_or] at hx
    exact (hvst.others x hx.2).trans (h.others x hx.1)
  · rcases (hmem x).mp hx with hold | hnew
    · exact h.moves x hold
    · -- The superclass moves, so the subclass does.
      obtain ⟨c, hreg, hsup, hsu⟩ := (hinv.subclasses x cls).mp hnew
      subst hsu
      exact ⟨_, .sub hreg hsup hreg₀.host hmv₀⟩
  · rcases (hmem x).mp hx with hold | hnew
    · rcases h.origin x hold with hrt | ⟨super, hsu, hsub⟩
      · exact .inl hrt
      · exact .inr ⟨super, mem_append_left _ hsu, hsub⟩
    · exact .inr ⟨cls, mem_append_right _ mem_cons_self, hnew⟩
  · rcases mem_append.mp hsu with hdn | hls
    · exact (hmem x).mpr (.inl (h.closed super hdn x hx))
    · rw [mem_singleton.mp hls] at hx
      exact (hmem x).mpr (.inr hx)

structure Layout (s t : ObjC) : Prop where
  selectors : t.selectors = s.selectors
  classes : t.classes = s.classes
  moved : ∀ cls c d, Registered s cls c → Moves s cls d → ∃ c', t.objects cls = some (.real c') ∧ Shifted c c' d
  others : ∀ cls, (∀ d, ¬Moves s cls d) → t.objects cls = s.objects cls

theorem Reconciling.start (hinv : Inverts s g) : Reconciling s g [] g.queue s := by
  refine ⟨rfl, rfl, fun _ hcls => absurd hcls not_mem_nil, fun _ _ => rfl, fun cls hcls => ?_, fun cls hcls => .inl hcls,
    fun cls hcls => hcls, fun _ hsu => absurd hsu not_mem_nil⟩
  obtain ⟨c, hreg, hnil⟩ := (hinv.roots cls).mp hcls
  exact ⟨0, .root hreg hnil⟩

theorem layout_of_walk {n : Nat} (hinv : Inverts s g) (hft : Fits s)
    (h : walk g.inverted reconcile .late n s g.queue = .ok t) : Layout s t := by
  obtain ⟨all, hall⟩ := walk_invariant (Reconciling s g) (fun done cls queue t u ht hcl => ht.round hinv hft hcl)
    (.start hinv) h
  have hvst : ∀ cls d, Moves s cls d → cls ∈ all := by
    intro cls d hmv
    induction hmv with
    | root hreg hnil => simpa using hall.roots _ ((hinv.roots _).mpr ⟨_, hreg, hnil⟩)
    | sub hreg hsup _ _ ih => simpa using hall.closed _ ih _ ((hinv.subclasses _ _).mpr ⟨_, hreg, hsup, rfl⟩)
  refine ⟨hall.selectors, hall.classes, fun cls c d hreg hmv => hall.moved cls (hvst cls d hmv) c d hreg hmv,
    fun cls hnot => hall.others cls fun hin => ?_⟩
  obtain ⟨d, hmv⟩ := hall.moves cls (mem_append_left _ hin)
  exact hnot d hmv

def Consistent (s : ObjC) : Prop :=
  ∀ name cls, s.classes name = some cls → ∃ host, s.objects cls = some host ∧ host.className = some name

theorem registerStaticObject_ok (h : s.registerStaticObject obj host = .ok t) :
    s.objects obj = none ∧ t.classes = s.classes ∧ t.objects = update s.objects obj (some host) := by
  unfold registerStaticObject at h
  split at h
  · cases h
  · rename_i hno
    cases h
    exact ⟨not_isSome_iff_eq_none.mp hno, rfl, rfl⟩

/-- Registration does not replace host objects. -/
theorem kept_registerStaticObject {other : Nat} {host'} (h : s.registerStaticObject obj host = .ok t)
    (hoh : s.objects other = some host') : t.objects other = some host' := by
  obtain ⟨hno, -, hobj⟩ := registerStaticObject_ok h
  have hne : other ≠ obj := by
    rintro rfl
    rw [hno] at hoh
    cases hoh
  rw [hobj, update_of_ne hne]
  exact hoh

theorem Consistent.registerPair {metaclass : Nat} {metaHost} (h : Consistent s)
    (hnm : host.className = some name) (hcl : s.registerPair name cls metaclass host metaHost = .ok t) : Consistent t := by
  obtain ⟨s₁, hcla, hcl⟩ := bind_eq_ok.mp hcl
  obtain ⟨s₂, hmet, heq⟩ := bind_eq_ok.mp hcl
  cases heq
  obtain ⟨-, hcle, hobj⟩ := registerStaticObject_ok hcla
  obtain ⟨-, hcle', -⟩ := registerStaticObject_ok hmet
  have hnew : s₁.objects cls = some host := by
    rw [hobj, update_self]
  have hkp : ∀ x host, s₁.objects x = some host → s₂.objects x = some host := fun _ _ => kept_registerStaticObject hmet
  intro n x hx
  simp only [hcle', hcle] at hx
  rcases eq_or_ne n name with rfl | hne
  · rw [update_self] at hx
    cases hx
    exact ⟨host, hkp cls host hnew, hnm⟩
  · rw [update_of_ne hne] at hx
    obtain ⟨host', hho, hnm'⟩ := h n x hx
    exact ⟨host', hkp x host' (kept_registerStaticObject hcla hho), hnm'⟩

theorem Consistent.registerBinClass {slot : Nat} (h : Consistent s) (hcl : s.registerBinClass slot = .ok t) : Consistent t := by
  obtain ⟨cls, -, hcl⟩ := bind_eq_ok.mp hcl
  obtain ⟨metaclass, -, hcl⟩ := bind_eq_ok.mp hcl
  obtain ⟨fake, -, hcl⟩ := bind_eq_ok.mp hcl
  cases fake with
  | some name => exact h.registerPair rfl hcl
  | none =>
    obtain ⟨c, -, hcl⟩ := bind_eq_ok.mp hcl
    obtain ⟨m, -, hcl⟩ := bind_eq_ok.mp hcl
    split at hcl
    · have hs : Consistent { s with selectors := m.2 } := h
      exact hs.registerPair rfl hcl
    · cases hcl

theorem Consistent.readClasses (h : Consistent s) (hrd : s.readClasses addr size = .ok t) : Consistent t := by
  unfold ObjC.readClasses at hrd
  split at hrd
  · cases hrd
  · exact foldlM_invariant (fun _ => Consistent) (fun _ _ s t hs hro => hs.registerBinClass hro) h hrd

theorem Consistent.nodup (h : Consistent s) (hod : Lists s order) (hnd : order.Nodup) : (order.map Prod.snd).Nodup := by
  refine hnd.map_on fun e he e' he' heq => ?_
  obtain ⟨host, hho, hnm⟩ := h e.1 e.2 ((hod e.1 e.2).mp he)
  obtain ⟨host', hho', hnm'⟩ := h e'.1 e'.2 ((hod e'.1 e'.2).mp he')
  rw [heq, hho'] at hho
  cases hho
  exact Prod.ext (some_inj.mp (hnm.symm.trans hnm')) heq

structure Distinct (rest : List (List UInt8 × Nat)) (g : Inheritance) : Prop where
  entries : (rest.map Prod.snd).Nodup
  queue : g.queue.Nodup
  inverted : ∀ super, (g.inverted super).Nodup
  later : ∀ super, ∀ cls ∈ g.inverted super, cls ∉ rest.map Prod.snd

theorem Distinct.round {e}
    (h : Distinct (e :: rest) g) (hro : s.invert g e = .ok g') : Distinct rest g' := by
  obtain ⟨hfh, hrs⟩ := nodup_cons.mp h.entries
  have hlr := fun super cls hcls hin =>
    h.later super cls hcls (mem_cons_of_mem _ hin)
  rcases invert_ok hro with ⟨c, -, -, hnew, hqu, hiv⟩ | ⟨c, -, -, hqu, hiv⟩ | ⟨-, hqu, hiv⟩
  · refine ⟨hrs, ?_, hiv ▸ h.inverted, hiv ▸ hlr⟩
    rw [hqu]
    exact h.queue.append (nodup_singleton _) (disjoint_singleton.mpr hnew)
  · refine ⟨hrs, hqu ▸ h.queue, fun super => ?_, fun super cls hcls => ?_⟩
    · rw [hiv]
      rcases eq_or_ne super c.superclass with rfl | hne
      · rw [update_self]
        refine (h.inverted _).append (nodup_singleton _) (disjoint_singleton.mpr fun hin => ?_)
        exact h.later _ _ hin mem_cons_self
      · rw [update_of_ne hne]
        exact h.inverted super
    · rw [hiv, mem_update_append] at hcls
      rcases hcls with hold | ⟨rfl, -⟩
      · exact hlr super cls hold
      · exact hfh
  · exact ⟨hrs, hqu ▸ h.queue, hiv ▸ h.inverted, hiv ▸ hlr⟩

theorem inheritance_distinct (hnd : (order.map Prod.snd).Nodup)
    (h : s.inheritance order = .ok g) : Distinct [] g := by
  obtain ⟨g', hfld, heq⟩ := bind_eq_ok.mp h
  split at heq
  · cases heq
    refine foldlM_invariant Distinct (fun e rest g g' hg => hg.round) ?_ hfld
    exact ⟨hnd, nodup_nil, fun _ => nodup_nil, fun _ _ hcls => absurd hcls not_mem_nil⟩
  · cases heq

theorem Inverts.forest (hinv : Inverts s g) (h : Distinct [] g) : Forest g.inverted g.queue := by
  refine ⟨h.inverted, fun a b cls ha hb => ?_, fun super cls hsub hrt => ?_⟩
  · obtain ⟨c, hreg, -, rfl⟩ := (hinv.subclasses cls a).mp ha
    obtain ⟨c', hreg', -, rfl⟩ := (hinv.subclasses cls b).mp hb
    rw [hreg.unique hreg']
  · obtain ⟨c, hreg, hsup, -⟩ := (hinv.subclasses cls super).mp hsub
    obtain ⟨c', hreg', hnil⟩ := (hinv.roots cls).mp hrt
    obtain rfl := hreg.unique hreg'
    exact hsup hnil

/-- Once the classes have been read and their inheritance has been inverted, the registration returns. -/
theorem registerBinClasses_returns {s₀ : ObjC}
    (hs : Consistent s₀) (hrd : s₀.readClasses addr size = .ok s) (hod : Lists s order) (hnd : order.Nodup)
    (hft : Fits s) (hg : s.inheritance order = .ok g) : ∃ t, s₀.registerBinClasses (some (addr, size)) order = .ok t := by
  have hinv := inheritance_ok hod hg
  have hdst := inheritance_distinct ((hs.readClasses hrd).nodup hod hnd) hg
  have hlis : ∀ cls c, Registered s cls c → cls ∈ order.map Prod.snd := by
    rintro cls c ⟨⟨name, hnm⟩, -⟩
    exact mem_map.mpr ⟨(name, cls), (hod name cls).mpr hnm, rfl⟩
  have hcl : s₀.registerBinClasses (some (addr, size)) order = walk g.inverted reconcile .late order.length s g.queue := by
    simp [registerBinClasses, hrd, hg]
  cases hwlk : walk g.inverted reconcile .late order.length s g.queue with
  | ok t => exact ⟨t, hcl.trans hwlk⟩
  | error panic =>
    rcases walk_error (Reconciling s g) (fun done cls queue t u ht hcl => ht.round hinv hft hcl) (.start hinv) hwlk with
      hlat | ⟨done, cls, queue, t, ht, herr⟩
    · have hlen : (order.map Prod.snd).length ≤ order.length + ([] : List Nat).length := (length_map _).le
      have hsr : Visiting g.inverted g.queue [] g.queue := ⟨hdst.queue, fun cls hrt => .inl hrt⟩
      refine absurd (hlat ▸ hwlk) (walk_ne_late (hinv.forest hdst) (fun super cls hsub => ?_) (fun cls hrt => ?_)
        reconcile_ne_late hsr hlen)
      · obtain ⟨c, hreg, -⟩ := (hinv.subclasses cls super).mp hsub
        exact hlis cls c hreg
      · obtain ⟨c, hreg, -⟩ := (hinv.roots cls).mp hrt
        exact hlis cls c hreg
    · obtain ⟨d, hmv⟩ := ht.moves cls (mem_append_right _ mem_cons_self)
      obtain ⟨c, hreg⟩ := hmv.registered
      obtain ⟨u, hok, -⟩ := reconcile_visits hinv hft ht hreg hmv
      have heq := herr.symm.trans hok
      cases heq

end TouchHLE.Objc.ObjC
