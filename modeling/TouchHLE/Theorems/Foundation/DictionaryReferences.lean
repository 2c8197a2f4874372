import TouchHLE.Theorems.Foundation.NSDictionary

/-! The references of mutable dictionaries. A dictionary keeps a reference too many for each key that is set again, and for
    each entry of a dictionary that is added to itself. -/

namespace TouchHLE.Foundation
open Lib Lib.Assoc List Option Function

variable (refs : Refs) (x : Option Id) (o : Id)

def one : Int := if x = some o then 1 else 0

theorem one_nonneg : 0 ≤ one x o := by
  unfold one
  split <;> decide

theorem one_self : one (some o) o = 1 := if_pos rfl

theorem Refs.add_apply (n : Int) (o : Id) : refs.add x n o = refs o + n * one x o := by
  cases x with
  | none => simp [Refs.add, one]
  | some y =>
    rcases eq_or_ne o y with rfl | hne
    · simp [Refs.add, one]
    · simp [Refs.add, one, update_of_ne hne, hne.symm]

theorem retain_apply : retain refs x o = refs o + one x o := by
  rw [retain, Refs.add_apply, one_mul]

theorem release_apply : release refs x o = refs o - one x o := by
  rw [release, Refs.add_apply]
  omega

def stored : List (Id × Option Id) → Id → Int
  | [], _ => 0
  | e :: l, o => one e.1 o + one e.2 o + stored l o

theorem stored_nil : stored [] o = 0 := rfl

theorem stored_cons (e : Id × Option Id) (l : List (Id × Option Id)) (o : Id) :
    stored (e :: l) o = one e.1 o + one e.2 o + stored l o := rfl

theorem stored_perm {l l'} (h : l.Perm l') (o : Id) : stored l o = stored l' o := by
  induction h with
  | nil => rfl
  | cons e _ ih => rw [stored_cons, stored_cons, ih]
  | swap e f l =>
    simp only [stored_cons]
    omega
  | trans _ _ ih ih' => exact ih.trans ih'

theorem stored_nonneg (l : List (Id × Option Id)) (o : Id) : 0 ≤ stored l o := by
  induction l with
  | nil => exact le_refl 0
  | cons e l ih =>
    have hkey := one_nonneg e.1 o
    have hvl := one_nonneg e.2 o
    rw [stored_cons]
    omega

theorem stored_pos {l} {e} (he : e ∈ l) : 0 < stored l e.1 := by
  have hrs := stored_nonneg (l.erase e) e.1
  have hvl := one_nonneg e.2 e.1
  rw [stored_perm (perm_cons_erase he), stored_cons, one_self]
  omega

namespace DictionaryHostObject
variable {M : Hashing Nat Id} {d d' : DictionaryHostObject} {refs refs' : Refs} {key : Id} {value : Option Id}

/-- The references beyond those of the stored keys and values. -/
def leak (p : DictionaryHostObject × Refs) (o : Id) : Int := p.2 o - stored p.1.map.pairs o

/-- When the key is in the table already, the reference to its copy is lost. -/
theorem Inserted.leak (h : Inserted M d refs key value d' refs') :
    (Lacks M d.map.pairs key ∧ d'.map.pairs.Perm ((key, value) :: d.map.pairs) ∧
        ∀ o, DictionaryHostObject.leak (d', refs') o = DictionaryHostObject.leak (d, refs) o) ∨
      ¬Lacks M d.map.pairs key ∧
        ∀ o, DictionaryHostObject.leak (d', refs') o = DictionaryHostObject.leak (d, refs) o + one key o := by
  cases h with
  | added hlk hp _ hrf =>
    refine .inl ⟨hlk, hp, fun o => ?_⟩
    simp only [DictionaryHostObject.leak, hrf, retain_apply, stored_perm hp, stored_cons]
    omega
  | replaced hsm hp hp' _ hrf =>
    refine .inr ⟨fun hlk => ?_, fun o => ?_⟩
    · have hnot := hlk _ (hp.mem_iff.mpr mem_cons_self)
      rw [hsm] at hnot
      cases hnot
    · simp only [DictionaryHostObject.leak, hrf, retain_apply, release_apply, stored_perm hp, stored_perm hp', stored_cons]
      omega

theorem Removed.leak (h : Removed M d refs key d' refs') (o : Id) :
    DictionaryHostObject.leak (d', refs') o = DictionaryHostObject.leak (d, refs) o := by
  cases h with
  | absent _ hd hrf => rw [hd, hrf]
  | removed _ hp _ hrf =>
    simp only [DictionaryHostObject.leak, hrf, release_apply, stored_perm hp, stored_cons]
    omega

theorem releaseAll_apply (d : DictionaryHostObject) (refs : Refs) (o : Id) :
    d.releaseAll refs o = refs o - stored d.map.pairs o := by
  unfold releaseAll
  induction d.map.pairs generalizing refs with
  | nil => simp [stored_nil]
  | cons e l ih =>
    rw [foldl_cons, ih, release_apply, release_apply, stored_cons]
    omega

def addEntries (M : Hashing Nat Id) (p : DictionaryHostObject × Refs) (entries : List Entry) : DictionaryHostObject × Refs :=
  entries.foldl (fun p e => p.1.insert M p.2 e.key e.copied e.value true) p

/-- Nothing is lost exactly when all keys are new, for the table and among themselves. -/
theorem addEntries_leak (hM : M.Lawful) (entries : List Entry) (p : DictionaryHostObject × Refs)
    (hinv : Buckets.Inv M p.1.map) (hcps : ∀ e ∈ entries, M.same e.key e.copied = true) :
    Buckets.Inv M (addEntries M p entries).1.map ∧ ∃ lost : Id → Int, (∀ o, 0 ≤ lost o) ∧
      (∀ o, leak (addEntries M p entries) o = leak p o + lost o) ∧
      ((∀ o, lost o = 0) ↔ (∀ e ∈ entries, Lacks M p.1.map.pairs e.key) ∧
        entries.Pairwise fun a b => M.same a.key b.key = false) := by
  induction entries generalizing p with
  | nil => exact ⟨hinv, fun _ => 0, fun _ => le_refl 0, fun o => (add_zero _).symm, by simp⟩
  | cons e entries ih =>
    have hcp := hcps e mem_cons_self
    obtain ⟨d', refs', heq, hins, hinv'⟩ := insert_spec hM hinv p.2 e.key e.copied e.value true
    rw [if_pos rfl] at hins
    have hfld : addEntries M p (e :: entries) = addEntries M (d', refs') entries := by
      rw [addEntries, foldl_cons, heq]
      rfl
    obtain ⟨hinv'', lost, hnn, hlst, hiff⟩ := ih (d', refs') hinv' fun f hf => hcps f (mem_cons_of_mem e hf)
    rw [hfld]
    refine ⟨hinv'', ?_⟩
    rcases hins.leak with ⟨hlk, hp, hlea⟩ | ⟨hnot, hlea⟩
    · refine ⟨lost, hnn, fun o => (hlst o).trans (by rw [hlea]), hiff.trans ?_⟩
      -- A key that the longer table lacks is one that the table lacks and that differs from the new one.
      have hlk' : ∀ k, Lacks M d'.map.pairs k ↔ Lacks M p.1.map.pairs k ∧ M.same e.key k = false := by
        intro k
        rw [hM.same_congr hcp]
        refine ⟨fun h => ⟨fun f hf => ?_, ?_⟩, fun h f hf => ?_⟩
        · exact h f (hp.mem_iff.mpr (mem_cons_of_mem _ hf))
        · exact h (e.copied, some e.value) (hp.mem_iff.mpr mem_cons_self)
        · rcases mem_cons.mp (hp.mem_iff.mp hf) with rfl | hf
          · exact h.2
          · exact h.1 f hf
      have hkey : Lacks M p.1.map.pairs e.key := hlk.congr hM (hM.symm _ _ hcp)
      simp only [hlk', forall_mem_cons, pairwise_cons, hkey, true_and, forall_and]
      tauto
    · refine ⟨fun o => one e.copied o + lost o, fun o => add_nonneg (one_nonneg _ o) (hnn o), fun o => ?_, ?_⟩
      · rw [hlst, hlea, add_assoc]
      · refine iff_of_false (fun hzr => ?_) fun hnew => hnot ((hnew.1 e mem_cons_self).congr hM hcp)
        have hone : one e.copied e.copied + lost e.copied = 0 := hzr e.copied
        have hpos := hnn e.copied
        rw [one_self] at hone
        omega

theorem addEntries_ne_nil (hM : M.Lawful) (e : Entry) (entries : List Entry) (p : DictionaryHostObject × Refs)
    (hinv : Buckets.Inv M p.1.map) : (addEntries M p (e :: entries)).1.map.pairs ≠ [] := by
  induction entries generalizing e p with
  | nil =>
    obtain ⟨d', refs', heq, hins, -⟩ := insert_spec hM hinv p.2 e.key e.copied e.value true
    have hfld : addEntries M p [e] = (d', refs') := heq
    rw [hfld]
    rintro hnil
    cases hins with
    | added _ hp _ _ | replaced _ _ hp _ _ => exact absurd (hnil ▸ hp).length_eq (by simp)
  | cons f entries ih =>
    obtain ⟨d', refs', heq, -, hinv'⟩ := insert_spec hM hinv p.2 e.key e.copied e.value true
    have hfld : addEntries M p (e :: f :: entries) = addEntries M (d', refs') (f :: entries) := by
      rw [addEntries, foldl_cons, heq]
      rfl
    rw [hfld]
    exact ih f (d', refs') hinv'

end DictionaryHostObject

namespace Dictionaries
open DictionaryHostObject (addEntries addEntries_leak addEntries_ne_nil insert_spec remove_spec releaseAll_apply)

variable {ι : Type} {M : Hashing Nat Id} {s t : Dictionaries ι} {this other : ι} {d : DictionaryHostObject}

def pairs (s : Dictionaries ι) (this : ι) : List (Id × Option Id) := (s.hostObject this).elim [] (·.map.pairs)

/-- One reference for each key and each value that a dictionary stores, none for one that does not exist any more. -/
def Balanced (s : Dictionaries ι) : Prop := ∀ this o, s.refs this o = stored (s.pairs this) o

/-- What a call is to: dictionaries that exist, and copies and iterators that are what they should be. -/
def Fits (M : Hashing Nat Id) (s : Dictionaries ι) : Call ι → Prop
  | .new this => s.hostObject this = none
  | .dealloc this | .removeObjectForKey this _ | .removeAllObjects this => s.hostObject this ≠ none
  | .setObjectForKey this _ key copied => s.hostObject this ≠ none ∧ M.same key copied = true
  | .addEntriesFromDictionary this other entries => s.hostObject this ≠ none ∧ s.hostObject other ≠ none ∧
      (entries.map fun e => (e.key, some e.value)).Perm (s.pairs other) ∧ ∀ e ∈ entries, M.same e.key e.copied = true

/-- The keys that are set are new. A dictionary with an entry has the keys that are set when it is added to itself. -/
def Fine (M : Hashing Nat Id) (s : Dictionaries ι) : Call ι → Prop
  | .setObjectForKey this _ key _ => Lacks M (s.pairs this) key
  | .addEntriesFromDictionary this other _ => ∀ e ∈ s.pairs other, Lacks M (s.pairs this) e.1
  | _ => True

def leak (s : Dictionaries ι) (this : ι) (o : Id) : Int := s.refs this o - stored (s.pairs this) o

structure Inv (M : Hashing Nat Id) (s : Dictionaries ι) : Prop where
  tables : ∀ this d, s.hostObject this = some d → Buckets.Inv M d.map
  nonneg : ∀ this o, 0 ≤ s.leak this o

/-- References are only lost, and none exactly when the step is fine. -/
structure Answers (M : Hashing Nat Id) (s t : Dictionaries ι) (fine : Prop) : Prop where
  inv : Inv M t
  balanced : t.Balanced ↔ s.Balanced ∧ fine

theorem balanced_iff_leak : s.Balanced ↔ ∀ this o, s.leak this o = 0 := forall₂_congr fun _ _ => sub_eq_zero.symm

theorem pairs_eq (h : s.hostObject this = some d) : s.pairs this = d.map.pairs := by
  rw [pairs, h]
  rfl

variable [DecidableEq ι]

theorem Inv.answers {fine} (hs : Inv M s) (this : ι) (host : Option DictionaryHostObject) (refs : Refs) (lost : Id → Int)
    (hho : t.hostObject = update s.hostObject this host) (hrf : t.refs = update s.refs this refs)
    (htbl : ∀ d, host = some d → Buckets.Inv M d.map) (hnn : ∀ o, 0 ≤ lost o)
    (hlst : ∀ o, refs o - stored (host.elim [] (·.map.pairs)) o = s.leak this o + lost o)
    (hfin : (∀ o, lost o = 0) ↔ fine) : Answers M s t fine := by
  have hslf : ∀ o, t.leak this o = s.leak this o + lost o := by
    intro o
    rw [← hlst, leak, pairs, hho, hrf, update_self, update_self]
  have hoth : ∀ i, i ≠ this → ∀ o, t.leak i o = s.leak i o := by
    intro i hi o
    rw [leak, leak, pairs, pairs, hho, hrf, update_of_ne hi, update_of_ne hi]
  refine ⟨⟨fun i d hi => ?_, fun i o => ?_⟩, ?_⟩
  · rcases eq_or_ne i this with rfl | hne
    · rw [hho, update_self] at hi
      exact htbl d hi
    · rw [hho, update_of_ne hne] at hi
      exact hs.tables i d hi
  · rcases eq_or_ne i this with rfl | hne
    · rw [hslf]
      exact add_nonneg (hs.nonneg i o) (hnn o)
    · rw [hoth i hne]
      exact hs.nonneg i o
  · rw [balanced_iff_leak, balanced_iff_leak, ← hfin]
    constructor
    · intro hzr
      have hbt : ∀ o, s.leak this o = 0 ∧ lost o = 0 := by
        intro o
        have hsum := (hslf o).symm.trans (hzr this o)
        have hold := hs.nonneg this o
        have hnew := hnn o
        omega
      refine ⟨fun i o => ?_, fun o => (hbt o).2⟩
      rcases eq_or_ne i this with rfl | hne
      · exact (hbt o).1
      · exact (hoth i hne o).symm.trans (hzr i o)
    · rintro ⟨hzr, hno⟩ i o
      rcases eq_or_ne i this with rfl | hne
      · rw [hslf, hzr, hno, add_zero]
      · rw [hoth i hne, hzr]

def become (s : Dictionaries ι) (this : ι) (p : DictionaryHostObject × Refs) : Dictionaries ι :=
  (s.setRefs this p.2).setHostObject this p.1

theorem become_become (p q : DictionaryHostObject × Refs) : (s.become this p).become this q = s.become this q := by
  simp [become, setRefs, setHostObject]

section
variable (h : s.hostObject this = some d)
include h

theorem become_self : s.become this (d, s.refs this) = s := by
  simp only [become, setRefs, setHostObject, update_eq_self]
  rw [← h, update_eq_self]

theorem take_eq : s.take this = .ok (d, s.setHostObject this .empty) := by
  simp [take, borrow, h]

theorem setObjectForKey_eq (object key copied : Id) : s.setObjectForKey M this object key copied =
      .ok (s.become this (d.insert M (s.refs this) key copied object true)) := by
  simp [setObjectForKey, take_eq h, become, setRefs, setHostObject]

theorem addEntries_eq (entries : List Entry) :
    entries.foldlM (fun s e => s.setObjectForKey M this e.value e.key e.copied) s =
      .ok (s.become this (addEntries M (d, s.refs this) entries)) := by
  induction entries generalizing s d with
  | nil =>
    change Except.ok s = .ok (s.become this (d, s.refs this))
    rw [become_self h]
  | cons e entries ih =>
    rw [foldlM_cons, setObjectForKey_eq h, ok_bind, ih (update_self _ _ _), become_become]
    simp only [become, setRefs, setHostObject, update_self]
    rfl

end

theorem dealloc_answers (hs : Inv M s) (h : s.hostObject this = some d) :
    ∃ t, s.dealloc this = .ok t ∧ Answers M s t True := by
  refine ⟨_, by simp only [dealloc, take_eq h, ok_bind]; rfl,
    hs.answers this none (d.releaseAll (s.refs this)) (fun _ => 0) ?_ rfl
      (fun _ hd => by cases hd) (fun _ => le_refl 0) (fun o => ?_) (by simp)⟩
  · simp [setRefs, setHostObject]
  · rw [releaseAll_apply, leak, pairs_eq h]
    exact (sub_zero _).trans (add_zero _).symm

theorem removeAllObjects_answers (hs : Inv M s) (h : s.hostObject this = some d) :
    ∃ t, s.removeAllObjects this = .ok t ∧ Answers M s t True := by
  refine ⟨_, by simp only [removeAllObjects, take_eq h, ok_bind]; rfl,
    hs.answers this (some .empty) (d.releaseAll (s.refs this)) (fun _ => 0) rfl rfl
      (fun e he => ?_) (fun _ => le_refl 0) (fun o => ?_) (by simp)⟩
  · cases he
    exact Buckets.inv_empty
  · rw [releaseAll_apply, leak, pairs_eq h]
    exact (sub_zero _).trans (add_zero _).symm

theorem new_answers (hs : Inv M s) (h : s.hostObject this = none) : Answers M s (s.new this) True := by
  refine hs.answers this (some .empty) (s.refs this) (fun _ => 0) rfl
    (update_eq_self _ _).symm (fun e he => ?_) (fun _ => le_refl 0) (fun o => ?_) (by simp)
  · cases he
    exact Buckets.inv_empty
  · rw [leak, pairs, h]
    exact (add_zero _).symm

section
variable (hM : M.Lawful) (hs : Inv M s) (h : s.hostObject this = some d)
include hM hs h

theorem setObjectForKey_answers (object : Id) {key copied : Id} (hcp : M.same key copied = true) :
    ∃ t, s.setObjectForKey M this object key copied = .ok t ∧ Answers M s t (Lacks M (s.pairs this) key) := by
  obtain ⟨d', refs', heq, hins, hinv⟩ := insert_spec hM (hs.tables this d h) (s.refs this) key copied object true
  refine ⟨_, (setObjectForKey_eq h object key copied).trans (by rw [heq]), ?_⟩
  have htbl : ∀ e, some d' = some e → Buckets.Inv M e.map := by
    rintro e ⟨⟩
    exact hinv
  rw [pairs_eq h]
  rcases hins.leak with ⟨hlk, -, hlea⟩ | ⟨hnot, hlea⟩
  · refine hs.answers this (some d') refs' (fun _ => 0) rfl rfl htbl (fun _ => le_refl 0) (fun o => ?_)
      (iff_of_true (fun _ => rfl) (hlk.congr hM (hM.symm _ _ hcp)))
    rw [leak, pairs_eq h, add_zero]
    exact hlea o
  · refine hs.answers this (some d') refs' (one copied) rfl rfl htbl (one_nonneg _) (fun o => ?_) (iff_of_false (fun hzr => ?_)
      fun hlk => hnot (hlk.congr hM hcp))
    · rw [leak, pairs_eq h]
      exact hlea o
    · have hone := hzr copied
      rw [one_self] at hone
      cases hone

theorem removeObjectForKey_answers (key : Id) : ∃ t, s.removeObjectForKey M this key = .ok t ∧ Answers M s t True := by
  obtain ⟨d', refs', heq, hrem, hinv⟩ := remove_spec hM (hs.tables this d h) (s.refs this) key
  refine ⟨s.become this (d', refs'), ?_, hs.answers this (some d') refs' (fun _ => 0) rfl rfl (fun e he => ?_)
    (fun _ => le_refl 0) (fun o => ?_) (by simp)⟩
  · have htk : (s.setHostObject this .empty).refs this = s.refs this := rfl
    simp only [removeObjectForKey, take_eq h, ok_bind, htk, heq]
    simp [become, setRefs, setHostObject]
  · cases he
    exact hinv
  · rw [leak, pairs_eq h, add_zero]
    exact hrem.leak o

/-- To a dictionary that is not the other one the entries are added as by `setObject:forKey:`. -/
theorem addEntriesFromDictionary_answers {d'} {entries}
    (hoh : s.hostObject other = some d') (hne : this ≠ other)
    (hes : (entries.map fun e => (e.key, some e.value)).Perm (s.pairs other))
    (hcps : ∀ e ∈ entries, M.same e.key e.copied = true) :
    ∃ t, s.addEntriesFromDictionary M this other entries = .ok t ∧
      Answers M s t (∀ e ∈ s.pairs other, Lacks M (s.pairs this) e.1) := by
  have htn : (s.setHostObject other .empty).hostObject this = some d := (update_of_ne hne _ _).trans h
  obtain ⟨hinv, lost, hnn, hlst, hiff⟩ := addEntries_leak hM entries (d, s.refs this) (hs.tables this d h) hcps
  refine ⟨_, by simp only [addEntriesFromDictionary, take_eq hoh, ok_bind, addEntries_eq htn]; rfl,
    hs.answers this (some (addEntries M (d, s.refs this) entries).1) (addEntries M (d, s.refs this) entries).2 lost
      ?_ rfl (fun e he => ?_) hnn (fun o => ?_) (hiff.trans ?_)⟩
  · -- The other dictionary has its table again.
    funext i
    rcases eq_or_ne i other with rfl | hi
    · rw [update_of_ne hne.symm, hoh]
      exact update_self _ _ _
    · rcases eq_or_ne i this with rfl | hi'
      · simp [setHostObject, become, setRefs, update_of_ne hi]
      · simp [setHostObject, become, setRefs, update_of_ne hi, update_of_ne hi']
  · cases he
    exact hinv
  · rw [leak, pairs_eq h]
    exact hlst o
  · have hdst : entries.Pairwise fun a b => M.same a.key b.key = false := by
      have hpi : Distinct M (s.pairs other) := by
        rw [pairs_eq hoh]
        exact (hs.tables other d' hoh).distinct
      exact pairwise_map.mp (hpi.perm hM hes.symm)
    rw [pairs_eq h, and_iff_left hdst]
    constructor
    · intro hlk e he
      obtain ⟨f, hf, rfl⟩ := mem_map.mp (hes.mem_iff.mpr he)
      exact hlk f hf
    · intro hlk e he
      exact hlk (e.key, some e.value) (hes.mem_iff.mp (mem_map_of_mem he))

/-- Entries that are added to their own dictionary go to a new table, which is then dropped. -/
theorem addEntriesFromDictionary_self_answers {entries}
    (hes : (entries.map fun e => (e.key, some e.value)).Perm (s.pairs this))
    (hcps : ∀ e ∈ entries, M.same e.key e.copied = true) :
    ∃ t, s.addEntriesFromDictionary M this this entries = .ok t ∧
      Answers M s t (∀ e ∈ s.pairs this, Lacks M (s.pairs this) e.1) := by
  have htn : (s.setHostObject this .empty).hostObject this = some .empty := update_self _ _ _
  obtain ⟨-, lost, hnn, hlst, -⟩ := addEntries_leak hM entries (.empty, s.refs this) Buckets.inv_empty hcps
  generalize hq : addEntries M (.empty, s.refs this) entries = q at hlst
  -- What the new table has taken for its pairs is lost as well.
  have hrf : ∀ o, q.2 o = s.refs this o + (stored q.1.map.pairs o + lost o) := by
    intro o
    have hsum : q.2 o - stored q.1.map.pairs o = s.refs this o - 0 + lost o := hlst o
    omega
  refine ⟨(((s.setHostObject this .empty).become this q).setHostObject this d), ?_,
    hs.answers this (some d) q.2 (fun o => stored q.1.map.pairs o + lost o) ?_ rfl (hs.tables this · ∘ h.trans)
      (fun o => add_nonneg (stored_nonneg _ o) (hnn o)) (fun o => ?_) ?_⟩
  · have hloo := addEntries_eq (M := M) htn entries
    have hsm : (s.setHostObject this .empty).refs this = s.refs this := rfl
    rw [hsm, hq] at hloo
    simp [addEntriesFromDictionary, take_eq h, hloo]
  · simp [setHostObject, become, setRefs]
  · rw [hrf, leak, pairs_eq h]
    change _ - stored d.map.pairs o = _
    omega
  · cases entries with
    | nil =>
      obtain rfl : (.empty, s.refs this) = q := hq
      have hnil : s.pairs this = [] := hes.symm.eq_nil
      rw [hnil]
      refine iff_of_true (fun o => ?_) (fun _ he => absurd he not_mem_nil)
      have hsum := hrf o
      dsimp only at hsum ⊢
      omega
    | cons e entries =>
      have hne : q.1.map.pairs ≠ [] := hq ▸ addEntries_ne_nil hM e entries (.empty, s.refs this) Buckets.inv_empty
      obtain ⟨f, hf⟩ := exists_mem_of_ne_nil _ hne
      refine iff_of_false (fun hzr => ?_) fun hlk => ?_
      · have hpos := stored_pos hf
        have hsum := hzr f.1
        have hmr := hnn f.1
        omega
      · have hmem := hes.mem_iff.mp mem_cons_self
        have hrfl := hlk _ hmem _ hmem
        rw [hM.refl] at hrfl
        cases hrfl

end

theorem call_answers (hM : M.Lawful) (hs : Inv M s) {c} (hft : s.Fits M c) :
    ∃ t, s.call M c = .ok ((), t) ∧ Answers M s t (Fine M s c) := by
  have hret : ∀ {method : Except DictionaryPanic (Dictionaries ι)} {fine : Prop}, (∃ t, method = .ok t ∧ Answers M s t fine) →
      ∃ t, (method >>= fun t => .ok ((), t)) = .ok ((), t) ∧ Answers M s t fine := by
    rintro _ _ ⟨t, rfl, han⟩
    exact ⟨t, rfl, han⟩
  cases c with
  | new this => exact ⟨_, rfl, new_answers hs hft⟩
  | dealloc this =>
    obtain ⟨d, h⟩ := ne_none_iff_exists'.mp hft
    exact hret (dealloc_answers hs h)
  | setObjectForKey this object key copied =>
    obtain ⟨d, h⟩ := ne_none_iff_exists'.mp hft.1
    exact hret (setObjectForKey_answers hM hs h object hft.2)
  | removeObjectForKey this key =>
    obtain ⟨d, h⟩ := ne_none_iff_exists'.mp hft
    exact hret (removeObjectForKey_answers hM hs h key)
  | removeAllObjects this =>
    obtain ⟨d, h⟩ := ne_none_iff_exists'.mp hft
    exact hret (removeAllObjects_answers hs h)
  | addEntriesFromDictionary this other entries =>
    obtain ⟨hths, hoh, hes, hcps⟩ := hft
    obtain ⟨d, h⟩ := ne_none_iff_exists'.mp hths
    obtain ⟨d', h'⟩ := ne_none_iff_exists'.mp hoh
    rcases eq_or_ne this other with rfl | hne
    · exact hret (addEntriesFromDictionary_self_answers hM hs h hes hcps)
    · exact hret (addEntriesFromDictionary_answers hM hs h h' hne hes hcps)

theorem inv_of_runs (hM : M.Lawful) (hrun : Runs (call M) (Fits M) start s) : Inv M s := by
  refine hrun.invariant ⟨fun _ _ h => (by cases h), fun _ _ => le_refl 0⟩ fun s t c r hs hft hcl => ?_
  obtain ⟨t', hcl', han⟩ := call_answers hM hs hft
  rw [hcl] at hcl'
  cases hcl'
  exact han.inv

/-- Dictionaries start without references. In every state that they reach the next call returns, and after it they own
    one reference for each stored key and value exactly when they did before and the keys that it sets are new. -/
theorem balanced_iff_of_runs (hM : M.Lawful) (hrun : Runs (call M) (Fits M) start s) {c : Call ι} (hfits : s.Fits M c) :
    (start : Dictionaries ι).Balanced ∧ ∃ t, s.call M c = .ok ((), t) ∧ (t.Balanced ↔ s.Balanced ∧ Fine M s c) := by
  obtain ⟨t, hcall, hanswers⟩ := call_answers hM (inv_of_runs hM hrun) hfits
  exact ⟨fun _ _ => rfl, t, hcall, hanswers.balanced⟩

/-- A key is set, and another one is about to be. -/
theorem balanced_iff_of_runs_second : ∃ M a b s,
    Runs (call M) (Fits M) start s ∧ s.pairs 0 = [(a, some b)] ∧
      ∃ t, s.call M (.setObjectForKey 0 a b b) = .ok ((), t) ∧ (t.Balanced ↔ s.Balanced ∧ Fine M s (.setObjectForKey 0 a b b)) := by
  let M : Hashing Nat Id := ⟨fun _ => 0, (· == ·)⟩
  let a : Id := ⟨4, by decide, by decide⟩
  let b : Id := ⟨8, by decide, by decide⟩
  obtain ⟨s, hs, hpairs, hexists⟩ : ∃ s, Runs (call M) (Fits M) start s ∧ s.pairs 0 = [(a, some b)] ∧
      s.hostObject 0 ≠ none :=
    ⟨_, .step (a := .setObjectForKey 0 b a a) (.step (a := .new 0) .start rfl rfl) ⟨by rintro ⟨⟩, rfl⟩ rfl, rfl, by rintro ⟨⟩⟩
  have hfits : s.Fits M (.setObjectForKey 0 a b b) := ⟨hexists, rfl⟩
  exact ⟨M, a, b, s, hs, hpairs, (balanced_iff_of_runs (Hashing.lawful_beq fun _ => 0) hs hfits).2⟩

/-- A key that is set twice is retained twice. A dictionary that is added to itself retains everything twice. -/
theorem retains_twice : ∃ M a b, M.Lawful ∧ a ≠ b ∧
    (∃ s, Runs (call M) (Fits M) start s ∧ s.pairs 0 = [(a, some b)] ∧ s.refs 0 a = 2 ∧ ¬s.Balanced) ∧
    ∃ s, Runs (call M) (Fits M) start s ∧ s.pairs 0 = [(a, some b)] ∧ s.refs 0 a = 2 ∧ s.refs 0 b = 2 ∧
      ¬s.Balanced := by
  let M : Hashing Nat Id := ⟨fun _ => 0, (· == ·)⟩
  let a : Id := ⟨4, by decide, by decide⟩
  let b : Id := ⟨8, by decide, by decide⟩
  have hnot : ∀ {s : Dictionaries Nat}, s.pairs 0 = [(a, some b)] → s.refs 0 a = 2 → ¬s.Balanced := by
    intro s hpairs hrefs hbalanced
    have hone := hbalanced 0 a
    rw [hrefs, hpairs] at hone
    exact absurd hone (by decide)
  refine ⟨M, a, b, Hashing.lawful_beq _, by decide, ⟨_, .step (a := .setObjectForKey 0 b a a)
    (.step (a := .setObjectForKey 0 b a a) (.step (a := .new 0) .start rfl rfl) ⟨by rintro ⟨⟩, rfl⟩ rfl) ⟨by rintro ⟨⟩, rfl⟩ rfl,
    rfl, rfl, hnot rfl rfl⟩, _, .step (a := .addEntriesFromDictionary 0 0 [⟨a, b, a⟩])
    (.step (a := .setObjectForKey 0 b a a) (.step (a := .new 0) .start rfl rfl) ⟨by rintro ⟨⟩, rfl⟩ rfl)
    ⟨by rintro ⟨⟩, by rintro ⟨⟩, .refl _, fun e he => ?_⟩ rfl, rfl, rfl, rfl, hnot rfl rfl⟩
  rw [mem_singleton.mp he]
  rfl

end Dictionaries

end TouchHLE.Foundation
