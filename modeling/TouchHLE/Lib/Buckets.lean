import TouchHLE.Lib.OrdMap

/-! Hash tables with lists of collisions. Keys are compared by a relation that need not be equality, so a table is a finite
    map from classes of keys. What an operation does is said of the pairs, up to their order. -/

namespace TouchHLE.Lib
open List OrdMap
variable {i : Nat} {η κ ν : Type}

structure Hashing (η κ : Type) where
  hash : κ → η
  same : κ → κ → Bool

structure Hashing.Lawful (H : Hashing η κ) : Prop where
  refl : ∀ a, H.same a a = true
  symm : ∀ a b, H.same a b = true → H.same b a = true
  trans : ∀ a b c, H.same a b = true → H.same b c = true → H.same a c = true
  hash : ∀ a b, H.same a b = true → H.hash a = H.hash b

namespace Hashing.Lawful
variable {H : Hashing η κ} {a b c : κ}

theorem same_comm (h : H.Lawful) (a b : κ) : H.same a b = H.same b a := Bool.eq_iff_iff.mpr ⟨h.symm a b, h.symm b a⟩

theorem same_congr (h : H.Lawful) (hab : H.same a b = true) (c : κ) : H.same a c = H.same b c :=
  Bool.eq_iff_iff.mpr ⟨h.trans b a c (h.symm a b hab), h.trans a b c hab⟩

end Hashing.Lawful

/-- Keys that are compared for equality, with any hash. -/
theorem Hashing.lawful_beq [BEq κ] [LawfulBEq κ] (hash : κ → η) : Hashing.Lawful ⟨hash, (· == ·)⟩ where
  refl := fun _ => beq_self_eq_true _
  symm := fun _ _ h => beq_iff_eq.mpr (eq_of_beq h).symm
  trans := fun _ _ _ h h' => beq_iff_eq.mpr ((eq_of_beq h).trans (eq_of_beq h'))
  hash := fun _ _ h => congrArg hash (eq_of_beq h)

namespace Assoc
variable {H : Hashing η κ} {l l' : List (κ × ν)} {k k₁ x : κ} {v w : ν}

def Lacks (H : Hashing η κ) (l : List (κ × ν)) (k : κ) : Prop := ∀ e ∈ l, H.same e.1 k = false

def Distinct (H : Hashing η κ) (l : List (κ × ν)) : Prop := l.Pairwise fun a b => H.same a.1 b.1 = false

def Holds (H : Hashing η κ) (l : List (κ × ν)) (k : κ) (v : ν) : Prop := ∃ k', (k', v) ∈ l ∧ H.same k' k = true

inductive Put (H : Hashing η κ) (l : List (κ × ν)) (k k₁ : κ) (v : ν) (l' : List (κ × ν)) : Prop where
  | added : Lacks H l k → l'.Perm ((k₁, v) :: l) → Put H l k k₁ v l'
  | replaced {k₀ : κ} {v₀ : ν} {rest : List (κ × ν)} : H.same k₀ k = true → l.Perm ((k₀, v₀) :: rest) →
      l'.Perm ((k₁, v) :: rest) → Put H l k k₁ v l'

inductive Took (H : Hashing η κ) (l : List (κ × ν)) (k : κ) (l' : List (κ × ν)) : Prop where
  | absent : Lacks H l k → l' = l → Took H l k l'
  | removed {k₀ : κ} {v₀ : ν} : H.same k₀ k = true → l.Perm ((k₀, v₀) :: l') → Took H l k l'

theorem lacks_nil : Lacks H ([] : List (κ × ν)) k := fun _ he => absurd he not_mem_nil

theorem Distinct.perm (h : Distinct H l) (hH : H.Lawful) (hp : l.Perm l') : Distinct H l' :=
  (hp.pairwise_iff fun {a b} hab => (hH.same_comm b.1 a.1).trans hab).mp h

theorem distinct_cons_iff {e : κ × ν} (hH : H.Lawful) : Distinct H (e :: l) ↔ Lacks H l e.1 ∧ Distinct H l := by
  rw [Distinct, pairwise_cons]
  refine and_congr_left fun _ => forall₂_congr fun f _ => ?_
  rw [hH.same_comm]

theorem Lacks.congr (h : Lacks H l k) (hH : H.Lawful) (hx : H.same k x = true) : Lacks H l x := fun e he => by
  rw [hH.same_comm, ← hH.same_congr hx, hH.same_comm]
  exact h e he

theorem Lacks.not_holds (h : Lacks H l k) : ¬Holds H l k v := by
  rintro ⟨k', hmem, hsm⟩
  rw [h _ hmem] at hsm
  cases hsm

theorem holds_perm (hp : l.Perm l') : Holds H l k v ↔ Holds H l' k v :=
  exists_congr fun _ => and_congr_left fun _ => hp.mem_iff

theorem holds_cons {e : κ × ν} : Holds H (e :: l) k v ↔ (H.same e.1 k = true ∧ e.2 = v) ∨ Holds H l k v := by
  simp only [Holds, mem_cons]
  constructor
  · rintro ⟨k', rfl | hmem, hsm⟩
    · exact .inl ⟨hsm, rfl⟩
    · exact .inr ⟨k', hmem, hsm⟩
  · rintro (⟨hsm, rfl⟩ | ⟨k', hmem, hsm⟩)
    · exact ⟨e.1, .inl rfl, hsm⟩
    · exact ⟨k', .inr hmem, hsm⟩

theorem Distinct.others {rest : List (κ × ν)} {k₀ : κ} {v₀ : ν} (h : Distinct H l) (hH : H.Lawful) (hsm : H.same k₀ k = true)
    (hp : l.Perm ((k₀, v₀) :: rest)) : Lacks H rest k ∧ Distinct H rest := by
  obtain ⟨hlk, hrs⟩ := (distinct_cons_iff hH).mp (h.perm hH hp)
  exact ⟨hlk.congr hH hsm, hrs⟩

theorem Put.distinct (h : Put H l k k₁ v l') (hH : H.Lawful) (hl : Distinct H l) (hk : H.same k k₁ = true) : Distinct H l' := by
  cases h with
  | added hlk hp => exact .perm ((distinct_cons_iff hH).mpr ⟨hlk.congr hH hk, hl⟩) hH hp.symm
  | replaced hsm hp hp' =>
    obtain ⟨hlk, hrs⟩ := hl.others hH hsm hp
    exact .perm ((distinct_cons_iff hH).mpr ⟨hlk.congr hH hk, hrs⟩) hH hp'.symm

theorem Took.distinct (h : Took H l k l') (hH : H.Lawful) (hl : Distinct H l) : Distinct H l' := by
  cases h with
  | absent _ heq => exact heq ▸ hl
  | removed hsm hp => exact (hl.others hH hsm hp).2

theorem Put.holds (h : Put H l k k₁ v l') (hH : H.Lawful) (hl : Distinct H l) (hk : H.same k k₁ = true) :
    Holds H l' x w ↔ if H.same k x then v = w else Holds H l x w := by
  have hca : ∀ {rest : List (κ × ν)}, Lacks H rest k → l'.Perm ((k₁, v) :: rest) →
      (Holds H l' x w ↔ if H.same k x then v = w else Holds H rest x w) := by
    intro rest hlk hp
    rw [holds_perm hp, holds_cons, ← hH.same_congr hk]
    by_cases hx : H.same k x = true
    · rw [if_pos hx]
      exact ⟨fun h => (h.resolve_right (hlk.congr hH hx).not_holds).2, fun h => .inl ⟨hx, h⟩⟩
    · rw [if_neg hx]
      exact ⟨fun h => h.resolve_left fun h => hx h.1, .inr⟩
  cases h with
  | added hlk hp => exact hca hlk hp
  | replaced hsm hp hp' =>
    obtain ⟨hlk, -⟩ := hl.others hH hsm hp
    rw [hca hlk hp', holds_perm hp, holds_cons, hH.same_congr hsm]
    by_cases hx : H.same k x = true
    · simp [hx]
    · simp [hx]

section
variable (h : Took H l k l') (hH : H.Lawful) (hl : Distinct H l)
include h hH hl

theorem Took.holds : Holds H l' x w ↔ H.same k x = false ∧ Holds H l x w := by
  cases h with
  | absent hlk heq =>
    subst heq
    refine ⟨fun h => ⟨?_, h⟩, And.right⟩
    by_contra hx
    exact (hlk.congr hH (Bool.eq_true_of_not_eq_false hx)).not_holds h
  | removed hsm hp =>
    obtain ⟨hlk, -⟩ := hl.others hH hsm hp
    rw [holds_perm hp, holds_cons, hH.same_congr hsm]
    constructor
    · intro h
      refine ⟨?_, .inr h⟩
      by_contra hx
      exact (hlk.congr hH (Bool.eq_true_of_not_eq_false hx)).not_holds h
    · rintro ⟨hx, ⟨hx', -⟩ | h⟩
      · rw [hx] at hx'
        cases hx'
      · exact h

theorem Took.lacks : Lacks H l' k := by
  cases h with
  | absent hlk heq => exact heq ▸ hlk
  | removed hsm hp => exact (hl.others hH hsm hp).1

theorem Took.of_mem (hk : (k, v) ∈ l) : l.Perm ((k, v) :: l') := by
  cases h with
  | absent hlk _ =>
    have hslf := hlk _ hk
    rw [hH.refl] at hslf
    cases hslf
  | @removed k₀ v₀ hsm hp =>
    rcases mem_cons.mp (hp.mem_iff.mp hk) with heq | hk'
    · rwa [heq]
    · have hnot := (hl.others hH hsm hp).1 _ hk'
      rw [hH.refl] at hnot
      cases hnot

end

theorem find?_eq_some_iff (hH : H.Lawful) (hl : Distinct H l) :
    (l.find? fun e => H.same e.1 k).map (·.2) = some v ↔ Holds H l k v := by
  induction l with
  | nil => simp [Holds]
  | cons e l ih =>
    obtain ⟨hlk, hl'⟩ := (distinct_cons_iff hH).mp hl
    rw [holds_cons, find?_cons]
    cases hsm : H.same e.1 k with
    | true =>
      have hnot := (hlk.congr hH hsm).not_holds (v := v)
      simp [hnot]
    | false => simpa using ih hl'

end Assoc

abbrev Buckets (η κ ν : Type) [LinearOrder η] := OrdMap η (List (κ × ν))

namespace Buckets
open Assoc
variable [LinearOrder η] {H : Hashing η κ} {m : Buckets η κ ν} {k : κ} {v : ν} {b : List (κ × ν)}

def bucket (m : Buckets η κ ν) (h : η) : List (κ × ν) := (m.lookup h).getD []

def pairs (m : Buckets η κ ν) : List (κ × ν) := m.entries.flatMap (·.2)

theorem pairs_perm (m : Buckets η κ ν) (h : η) : (pairs m).Perm (bucket m h ++ pairs (m.erase h)) := by
  unfold bucket
  cases hb : m.lookup h with
  | none =>
    rw [erase_of_lookup_none hb]
    exact .refl _
  | some b => exact (perm_of_lookup hb).flatMap_right _

theorem pairs_insert_perm (m : Buckets η κ ν) (h : η) (b : List (κ × ν)) :
    (pairs (m.insert h b)).Perm (b ++ pairs (m.erase h)) :=
  (insert_perm m h b).flatMap_right _

structure Inv (H : Hashing η κ) (m : Buckets η κ ν) : Prop where
  placed : ∀ h b, (h, b) ∈ m → ∀ e ∈ b, H.hash e.1 = h
  distinct : Distinct H (pairs m)

theorem inv_empty : Inv H (empty : Buckets η κ ν) := ⟨fun _ _ h => absurd h (not_mem_empty _), .nil⟩

theorem Inv.bucket_placed (h : Inv H m) {x : η} : ∀ e ∈ bucket m x, H.hash e.1 = x := by
  unfold bucket
  cases hb : m.lookup x with
  | none => exact fun _ he => absurd he not_mem_nil
  | some b => exact h.placed x b (lookup_eq_some.mp hb)

theorem Inv.insert (h : Inv H m) {x : η} (hb : ∀ e ∈ b, H.hash e.1 = x) (hd : Distinct H (pairs (m.insert x b))) :
    Inv H (m.insert x b) := by
  refine ⟨fun x' b' hmem => ?_, hd⟩
  rcases mem_insert.mp hmem with heq | ⟨hmem, -⟩
  · cases heq
    exact hb
  · exact h.placed x' b' hmem

section
variable (h : Inv H m) (hH : H.Lawful)
include h hH

theorem Inv.mem_bucket {e : κ × ν} (he : e ∈ pairs m) (hsm : H.same e.1 k = true) : e ∈ bucket m (H.hash k) := by
  rcases mem_append.mp ((pairs_perm m (H.hash k)).mem_iff.mp he) with hb | hrs
  · exact hb
  · obtain ⟨⟨x, b⟩, hmem, heb⟩ := mem_flatMap.mp hrs
    obtain ⟨hmem, hx⟩ := mem_erase.mp hmem
    refine absurd ?_ hx
    rw [← hH.hash _ _ hsm]
    exact (h.placed x b hmem e heb).symm

theorem Inv.lacks (hb : Lacks H (bucket m (H.hash k)) k) : Lacks H (pairs m) k := by
  intro e he
  by_contra hsm
  have htu := Bool.eq_true_of_not_eq_false hsm
  rw [hb e (h.mem_bucket hH he htu)] at htu
  cases htu

theorem Inv.distinct_bucket (x : η) : Distinct H (bucket m x) :=
  (pairwise_append.mp (h.distinct.perm hH (pairs_perm m x))).1

theorem Inv.find?_eq_some_iff :
    ((bucket m (H.hash k)).find? fun e => H.same e.1 k).map (·.2) = some v ↔ Holds H (pairs m) k v := by
  rw [Assoc.find?_eq_some_iff hH (h.distinct_bucket hH _)]
  constructor
  · rintro ⟨k', hmem, hsm⟩
    exact ⟨k', (pairs_perm m _).mem_iff.mpr (mem_append_left _ hmem), hsm⟩
  · rintro ⟨k', hmem, hsm⟩
    exact ⟨k', h.mem_bucket hH hmem hsm, hsm⟩

end

theorem pairs_append_perm (m : Buckets η κ ν) (x : η) (e : κ × ν) :
    (pairs (m.insert x (bucket m x ++ [e]))).Perm (e :: pairs m) :=
  (pairs_insert_perm _ _ _).trans
    (((perm_append_singleton _ _).append_right _).trans ((pairs_perm m _).symm.cons _))

theorem Inv.append (h : Inv H m) (hH : H.Lawful) {k₁ : κ} (hk : H.same k k₁ = true)
    (hb : Lacks H (bucket m (H.hash k)) k) (v : ν) :
    (pairs (m.insert (H.hash k) (bucket m (H.hash k) ++ [(k₁, v)]))).Perm ((k₁, v) :: pairs m) ∧
      Inv H (m.insert (H.hash k) (bucket m (H.hash k) ++ [(k₁, v)])) := by
  have hp := pairs_append_perm m (H.hash k) (k₁, v)
  have hput : Put H (pairs m) k k₁ v _ := .added (h.lacks hH hb) hp
  refine ⟨hp, h.insert (fun e he => ?_) (hput.distinct hH h.distinct hk)⟩
  rcases mem_append.mp he with he | he
  · exact h.bucket_placed e he
  · rw [mem_singleton.mp he]
    exact (hH.hash _ _ hk).symm

theorem pairs_perm_getElem {x : η} {e : κ × ν} (hi : (bucket m x)[i]? = some e) :
    (pairs m).Perm (e :: ((bucket m x).eraseIdx i ++ pairs (m.erase x))) := by
  obtain ⟨hlt, rfl⟩ := List.getElem?_eq_some_iff.mp hi
  exact (pairs_perm m x).trans ((List.getElem_cons_eraseIdx_perm hlt).symm.append_right _)

theorem pairs_eraseIdx_perm {x : η} {e : κ × ν} (hi : (bucket m x)[i]? = some e) :
    (pairs m).Perm (e :: pairs (m.insert x ((bucket m x).eraseIdx i))) :=
  (pairs_perm_getElem hi).trans ((pairs_insert_perm m x ((bucket m x).eraseIdx i)).symm.cons _)

section
variable (h : Inv H m) (hH : H.Lawful) {e : κ × ν} (hi : (bucket m (H.hash k))[i]? = some e)
include h hH hi

theorem Inv.set (hsm : H.same e.1 k = true) (v : ν) : ∃ rest, (pairs m).Perm (e :: rest) ∧
      (pairs (m.insert (H.hash k) ((bucket m (H.hash k)).set i (e.1, v)))).Perm ((e.1, v) :: rest) ∧
      Inv H (m.insert (H.hash k) ((bucket m (H.hash k)).set i (e.1, v))) := by
  have hlt := (List.getElem?_eq_some_iff.mp hi).1
  have hp := pairs_perm_getElem hi
  have hp' := (pairs_insert_perm m (H.hash k) ((bucket m (H.hash k)).set i (e.1, v))).trans
    ((set_perm_cons_eraseIdx hlt _).append_right _)
  have hput : Put H (pairs m) k e.1 v _ := .replaced hsm hp hp'
  refine ⟨_, hp, hp', h.insert (fun f hf => ?_) (hput.distinct hH h.distinct (hH.symm _ _ hsm))⟩
  rcases mem_or_eq_of_mem_set hf with hf | rfl
  · exact h.bucket_placed f hf
  · exact hH.hash _ _ hsm

theorem Inv.eraseIdx (hsm : H.same e.1 k = true) :
    (pairs m).Perm (e :: pairs (m.insert (H.hash k) ((bucket m (H.hash k)).eraseIdx i))) ∧
      Inv H (m.insert (H.hash k) ((bucket m (H.hash k)).eraseIdx i)) := by
  have hp := pairs_eraseIdx_perm hi
  have htoo : Took H (pairs m) k _ := .removed hsm hp
  exact ⟨hp, h.insert (fun f hf => h.bucket_placed f (mem_of_mem_eraseIdx hf)) (htoo.distinct hH h.distinct)⟩

end
end Buckets

end TouchHLE.Lib
