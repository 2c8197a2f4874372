import Mathlib.Data.Finset.Card
import Mathlib.Order.Interval.Finset.Nat
import TouchHLE.Foundation.NSDictionary
import TouchHLE.Lib.Vec
import TouchHLE.Spec.Dictionary

/-! Both kinds of dictionaries against histories: what the operations do to the pairs of the table, for keys with a lawful
    `hash` and comparison. -/

namespace TouchHLE.Foundation
open Lib Lib.Assoc List CFDictionaryHostObject DictionaryHostObject Spec.Dictionary Buckets

variable {α : Type} {l l' : List α} {e : α} {n : Nat}

theorem length_lt_of_distinct {ν : Type} {H : Hashing Nat Id} {l : List (Id × ν)} (hH : H.Lawful) (h : Distinct H l) :
    l.length < 2 ^ 32 := by
  have hnd : (l.map fun e => e.1.bits).Nodup := by
    refine pairwise_map.mpr (h.imp fun {a b} hab heq => ?_)
    rw [Id.ext heq, hH.refl] at hab
    cases hab
  have hsub : (l.map fun e => e.1.bits).toFinset ⊆ .Ico 1 (2 ^ 32) := by
    intro n hn
    obtain ⟨e, -, rfl⟩ := mem_map.mp (mem_toFinset.mp hn)
    exact Finset.mem_Ico.mpr ⟨e.1.pos, e.1.lt⟩
  have hcrd := Finset.card_le_card hsub
  rw [toFinset_card_of_nodup hnd, length_map, Nat.card_Ico] at hcrd
  omega

theorem increment_of_perm (hn : n = l.length % 2 ^ 32) (hp : l'.Perm (e :: l)) : increment n = l'.length % 2 ^ 32 := by
  rw [hn, hp.length_eq, length_cons, increment]
  omega

theorem decrement_of_perm (hn : n = l.length % 2 ^ 32) (hp : l.Perm (e :: l')) : decrement n = l'.length % 2 ^ 32 := by
  rw [hn, hp.length_eq, length_cons, decrement]
  omega

structure Sound (H : Hashing Nat Id) (log : List (Event Id (Option Id))) (d : DictionaryHostObject) :
    Prop where
  inv : Inv H d.map
  count : d.count = d.map.pairs.length % 2 ^ 32
  holds : ∀ k v, Holds H d.map.pairs k v ↔ latest H.same log k = some v

section
variable {H : Hashing Nat Id} {log : List (Event Id (Option Id))} {d d' : DictionaryHostObject}
  {key k k₁ : Id} {v : Option Id}

theorem sound_empty : Sound H [] .empty := by
  refine ⟨inv_empty, rfl, fun k v => ?_⟩
  simp [Holds, empty, pairs, OrdMap.empty, latest]

section
variable (h : Sound H log d) (hH : H.Lawful)
include h hH

theorem Sound.length_lt : d.map.pairs.length < 2 ^ 32 := length_lt_of_distinct hH h.inv.distinct

theorem Sound.put (hput : Put H d.map.pairs k k₁ v d'.map.pairs)
    (hinv : Inv H d'.map) (hcn : d'.count = d'.map.pairs.length % 2 ^ 32) (hk : H.same k k₁ = true)
    (hkey : H.same key k = true) : Sound H (log ++ [.insert key v]) d' := by
  refine ⟨hinv, hcn, fun x w => ?_⟩
  rw [hput.holds hH h.inv.distinct hk, latest_insert, hH.same_congr hkey, h.holds]
  split
  · rw [Option.some_inj]
  · rfl

theorem Sound.took (htoo : Took H d.map.pairs k d'.map.pairs)
    (hinv : Inv H d'.map) (hcn : d'.count = d'.map.pairs.length % 2 ^ 32) :
    Sound H (log ++ [.remove k]) d' := by
  refine ⟨hinv, hcn, fun x w => ?_⟩
  rw [htoo.holds hH h.inv.distinct, latest_remove, h.holds]
  cases H.same k x with
  | true | false => simp

theorem Sound.find?_bind (k : Id) : ((d.map.bucket (H.hash k)).find? fun e => H.same e.1 k).bind (·.2) =
      (latest H.same log k).join := by
  have heq : ((d.map.bucket (H.hash k)).find? fun e => H.same e.1 k).map (·.2) = latest H.same log k := by
    refine Option.ext fun v => ?_
    rw [h.inv.find?_eq_some_iff hH, h.holds]
  rw [← heq]
  cases (d.map.bucket (H.hash k)).find? fun e => H.same e.1 k with
  | none => rfl
  | some e => rfl

end

end

/-! ### `DictionaryHostObject` -/

namespace DictionaryHostObject
variable {M : Hashing Nat Id} {d d' : DictionaryHostObject} {refs refs' : Refs} {key : Id} {value : Option Id}
variable {hash : Nat} {l : List (Id × Option Id)} {log : List (Event Id (Option Id))}

theorem isKey_eq (hM : M.Lawful) (key : Id) : isKey M key = fun e => M.same e.1 key := by
  funext e
  rw [isKey]
  by_cases heq : e.1 = key
  · rw [heq, hM.refl, Bool.or_true]
  · rw [beq_eq_false_iff_ne.mpr heq, Bool.false_or]

theorem bucket_of_lookup {collisions} (h : d.map.lookup hash = some collisions) :
    d.map.bucket hash = collisions := by
  rw [bucket, h, Option.getD_some]

theorem bucket_of_lookup_none (h : d.map.lookup hash = none) : d.map.bucket hash = [] := by
  rw [bucket, h, Option.getD_none]

theorem lookup_eq (hM : M.Lawful) (key : Id) :
    d.lookup M key = ((d.map.bucket (M.hash key)).find? fun e => M.same e.1 key).bind (·.2) := by
  unfold lookup
  cases hlp : d.map.lookup (M.hash key) with
  | none => rw [bucket_of_lookup_none hlp]; rfl
  | some collisions =>
    rw [bucket_of_lookup hlp, isKey_eq hM]
    dsimp only
    cases collisions.find? fun e => M.same e.1 key with
    | none => rfl
    | some e => rfl

inductive Inserted (M : Hashing Nat Id) (d : DictionaryHostObject) (refs : Refs) (key : Id) (value : Option Id)
    (d' : DictionaryHostObject) (refs' : Refs) : Prop where
  | added : Lacks M d.map.pairs key → d'.map.pairs.Perm ((key, value) :: d.map.pairs) →
      d'.count = increment d.count → refs' = retain (retain refs key) value → Inserted M d refs key value d' refs'
  | replaced {k₀ : Id} {v₀ : Option Id} {rest : List (Id × Option Id)} : M.same k₀ key = true →
      d.map.pairs.Perm ((k₀, v₀) :: rest) → d'.map.pairs.Perm ((k₀, value) :: rest) →
      d'.count = d.count → refs' = release (retain (retain refs key) value) v₀ → Inserted M d refs key value d' refs'

theorem lacks_of_find? (h : l.find? (fun e => M.same e.1 key) = none) : Lacks M l key :=
  fun e he => by simpa using find?_eq_none.mp h e he

theorem getElem?_of_find? {e} (h : l.find? (fun e => M.same e.1 key) = some e) :
    l[l.findIdx fun e => M.same e.1 key]? = some e ∧ M.same e.1 key = true :=
  ⟨(Vec.getElem?_findIdx _ _).trans h, find?_some (p := fun e : Id × Option Id => M.same e.1 key) h⟩

theorem insert_spec (hM : M.Lawful) (h : Inv M d.map) (refs : Refs) (key copied : Id) (value : Option Id)
    (copyKey : Bool) : ∃ d' refs', d.insert M refs key copied value copyKey = (d', refs') ∧
      Inserted M d refs (if copyKey then copied else key) value d' refs' ∧ Inv M d'.map := by
  simp only [insert, isKey_eq hM]
  generalize (if copyKey = true then copied else key) = owned
  cases hlp : d.map.lookup (M.hash owned) with
  | none =>
    have hb := bucket_of_lookup_none hlp
    obtain ⟨hp, hinv⟩ := h.append hM (hM.refl owned) (hb ▸ lacks_nil) value
    rw [hb] at hp hinv
    exact ⟨_, _, rfl, .added (h.lacks hM (hb ▸ lacks_nil)) hp rfl rfl, hinv⟩
  | some collisions =>
    obtain rfl := bucket_of_lookup hlp
    dsimp only
    cases hfn : (d.map.bucket (M.hash owned)).find? fun e => M.same e.1 owned with
    | none =>
      have hlk := lacks_of_find? hfn
      obtain ⟨hp, hinv⟩ := h.append hM (hM.refl owned) hlk value
      exact ⟨_, _, rfl, .added (h.lacks hM hlk) hp rfl rfl, hinv⟩
    | some e =>
      obtain ⟨hi, hsm⟩ := getElem?_of_find? hfn
      obtain ⟨rest, hp, hp', hinv⟩ := h.set hM hi hsm value
      exact ⟨_, _, rfl, .replaced hsm hp hp' rfl rfl, hinv⟩

inductive Removed (M : Hashing Nat Id) (d : DictionaryHostObject) (refs : Refs) (key : Id) (d' : DictionaryHostObject)
    (refs' : Refs) : Prop where
  | absent : Lacks M d.map.pairs key → d' = d → refs' = refs → Removed M d refs key d' refs'
  | removed {k₀ : Id} {v₀ : Option Id} : M.same k₀ key = true → d.map.pairs.Perm ((k₀, v₀) :: d'.map.pairs) →
      d'.count = decrement d.count → refs' = release (release refs k₀) v₀ → Removed M d refs key d' refs'

theorem remove_spec (hM : M.Lawful) (h : Inv M d.map) (refs : Refs) (key : Id) :
    ∃ d' refs', d.remove M refs key = (d', refs') ∧ Removed M d refs key d' refs' ∧ Inv M d'.map := by
  simp only [remove, isKey_eq hM]
  cases hlp : d.map.lookup (M.hash key) with
  | none =>
    have hb := bucket_of_lookup_none hlp
    exact ⟨_, _, rfl, .absent (h.lacks hM (hb ▸ lacks_nil)) rfl rfl, h⟩
  | some collisions =>
    obtain rfl := bucket_of_lookup hlp
    dsimp only
    cases hfn : (d.map.bucket (M.hash key)).find? fun e => M.same e.1 key with
    | none => exact ⟨_, _, rfl, .absent (h.lacks hM (lacks_of_find? hfn)) rfl rfl, h⟩
    | some e =>
      obtain ⟨hi, hsm⟩ := getElem?_of_find? hfn
      obtain ⟨hp, hinv⟩ := h.eraseIdx hM hi hsm
      exact ⟨_, _, rfl, .removed hsm hp rfl rfl, hinv⟩

theorem Inserted.sound {owned : Id} (hM : M.Lawful) (hd : Sound M log d)
    (h : Inserted M d refs owned value d' refs') (hinv : Inv M d'.map) (hkey : M.same key owned = true) :
    Sound M (log ++ [.insert key value]) d' := by
  cases h with
  | added hlk hp hcn _ =>
    exact hd.put hM (.added hlk hp) hinv (hcn.trans (increment_of_perm hd.count hp)) (hM.refl owned) hkey
  | replaced hsm hp hp' hcn _ =>
    refine hd.put hM (.replaced hsm hp hp') hinv ?_ (hM.symm _ _ hsm) hkey
    rw [hcn, hd.count, hp.length_eq, hp'.length_eq, length_cons, length_cons]

theorem Removed.sound (hM : M.Lawful) (hd : Sound M log d)
    (h : Removed M d refs key d' refs') (hinv : Inv M d'.map) : Sound M (log ++ [.remove key]) d' := by
  cases h with
  | absent hlk heq _ =>
    subst heq
    exact hd.took hM (.absent hlk rfl) hinv hd.count
  | removed hsm hp hcn _ =>
    exact hd.took hM (.removed hsm hp) hinv (hcn.trans (decrement_of_perm hd.count hp))

def Fits (M : Hashing Nat Id) (_ : DictionaryHostObject × Refs) : Call → Prop
  | .insert key copied _ copyKey => copyKey = true → M.same key copied = true
  | .remove _ => True

def note (_ : DictionaryHostObject × Refs) (c : Call) (_ : Unit) (_ : DictionaryHostObject × Refs) :
    List (Event Id (Option Id)) :=
  match c with
  | .insert key _ value _ => [.insert key value]
  | .remove key => [.remove key]

theorem call_sound {s t} {c} {r}
    (hM : M.Lawful) (hs : Sound M log s.1) (hft : Fits M s c) (hcl : call M s c = .ok (r, t)) :
    Sound M (log ++ note s c r t) t.1 := by
  cases c with
  | insert key copied value copyKey =>
    obtain ⟨d', refs', heq, hins, hinv⟩ := insert_spec hM hs.inv s.2 key copied value copyKey
    simp only [call, heq] at hcl
    cases hcl
    refine hins.sound hM hs hinv ?_
    split
    · rename_i hcp
      exact hft hcp
    · exact hM.refl key
  | remove key =>
    obtain ⟨d', refs', heq, hrem, hinv⟩ := remove_spec hM hs.inv s.2 key
    simp only [call, heq] at hcl
    cases hcl
    exact hrem.sound hM hs hinv

end DictionaryHostObject

/-! ### `CFDictionaryHostObject` -/

namespace CFDictionaryHostObject
open DictionaryHostObject (bucket_of_lookup bucket_of_lookup_none lacks_of_find? getElem?_of_find?)

variable {C : CFCallBacks} {d d' : DictionaryHostObject} {key : Id}
  {log : List (Event Id (Option Id))}

theorem lookup_eq (key : Id) : lookup C d key =
    ((d.map.bucket (C.hashing.hash key)).find? fun e => C.hashing.same e.1 key).bind (·.2) := by
  unfold lookup
  cases hlp : d.map.lookup (C.hashing.hash key) with
  | none => rw [bucket_of_lookup_none hlp]; rfl
  | some collisions =>
    rw [bucket_of_lookup hlp]
    dsimp only
    cases collisions.find? fun e => C.hashing.same e.1 key with
    | none => rfl
    | some e => rfl

inductive Removed (C : CFCallBacks) (d : DictionaryHostObject) (key : Id) (d' : DictionaryHostObject) : Prop where
  | absent : Lacks C.hashing d.map.pairs key → d' = d → Removed C d key d'
  | removed {k₀ : Id} {v₀ : Option Id} : C.hashing.same k₀ key = true → d.map.pairs.Perm ((k₀, v₀) :: d'.map.pairs) →
      d'.count = decrement d.count → d'.map.lookup (C.hashing.hash key) ≠ none → Removed C d key d'

theorem remove_spec (hC : C.hashing.Lawful) (h : Inv C.hashing d.map) (key : Id) :
    Removed C d key (remove C d key).2 ∧ Inv C.hashing (remove C d key).2.map := by
  unfold remove
  dsimp only
  cases hlp : d.map.lookup (C.hashing.hash key) with
  | none =>
    have hb := bucket_of_lookup_none hlp
    exact ⟨.absent (h.lacks hC (hb ▸ lacks_nil)) rfl, h⟩
  | some collisions =>
    obtain rfl := bucket_of_lookup hlp
    dsimp only
    cases hfn : (d.map.bucket (C.hashing.hash key)).find? fun e => C.hashing.same e.1 key with
    | none => exact ⟨.absent (h.lacks hC (lacks_of_find? hfn)) rfl, h⟩
    | some e =>
      obtain ⟨hi, hsm⟩ := getElem?_of_find? hfn
      obtain ⟨hp, hinv⟩ := h.eraseIdx hC hi hsm
      refine ⟨.removed hsm hp rfl ?_, hinv⟩
      rw [OrdMap.lookup_insert_self]
      rintro ⟨⟩

section
variable (hC : C.hashing.Lawful) (hd : Sound C.hashing log d)
include hC hd

theorem Removed.sound (h : Removed C d key d')
    (hinv : Inv C.hashing d'.map) : Sound C.hashing (log ++ [.remove key]) d' := by
  cases h with
  | absent hlk heq =>
    subst heq
    exact hd.took hC (.absent hlk rfl) hinv hd.count
  | removed hsm hp hcn _ =>
    exact hd.took hC (.removed hsm hp) hinv (hcn.trans (decrement_of_perm hd.count hp))

/-- The pair is put at the end of the list of its hash, which a `remove` of the same key has left without it. -/
theorem insert_sound (key retainedKey : Id)
    (value retainedValue : Option Id) (hkey : C.retainKey = true → C.hashing.same key retainedKey = true) :
    ∃ d', insert C d key retainedKey value retainedValue = .ok d' ∧
      Sound C.hashing (log ++ [.insert key (if C.retainValue then retainedValue else value)]) d' := by
  have hon : C.hashing.same key (if C.retainKey then retainedKey else key) = true := by
    split
    · rename_i hrtn
      exact hkey hrtn
    · exact hC.refl key
  simp only [insert]
  generalize (if C.retainKey = true then retainedKey else key) = owned at hon ⊢
  generalize (if C.retainValue = true then retainedValue else value) = stored
  have hhh := hC.hash _ _ hon
  cases hlp : d.map.lookup (C.hashing.hash key) with
  | none =>
    have hb := bucket_of_lookup_none hlp
    obtain ⟨hp, hinv⟩ := hd.inv.append hC hon (hb ▸ lacks_nil) stored
    rw [hb] at hp hinv
    exact ⟨_, rfl, hd.put hC (.added (hd.inv.lacks hC (hb ▸ lacks_nil)) hp) hinv (increment_of_perm hd.count hp) hon
      (hC.refl key)⟩
  | some collisions =>
    have hcou : Inv C.hashing (mk d.map (increment d.count)).map := hd.inv
    obtain ⟨hrem, hinv₁⟩ := remove_spec hC hcou owned
    generalize (remove C ⟨d.map, increment d.count⟩ owned).2 = d₁ at hrem hinv₁
    -- The list of the hash is still there, and lacks the key.
    have hlp₁ : ∃ collisions₁, d₁.map.lookup (C.hashing.hash key) = some collisions₁ := by
      cases hrem with
      | absent _ heq => exact ⟨collisions, heq ▸ hlp⟩
      | removed _ _ _ hne => exact Option.ne_none_iff_exists'.mp (hhh ▸ hne)
    obtain ⟨collisions₁, hlp₁⟩ := hlp₁
    have hb := bucket_of_lookup hlp₁
    have hlk : Lacks C.hashing d₁.map.pairs key := by
      cases hrem with
      | absent hlk heq => exact heq ▸ hlk.congr hC (hC.symm _ _ hon)
      | removed hsm hp _ _ => exact ((hd.inv.distinct.others hC hsm hp).1).congr hC (hC.symm _ _ hon)
    have hlk₁ : Lacks C.hashing (d₁.map.bucket (C.hashing.hash key)) key := fun e he =>
      hlk e ((pairs_perm d₁.map _).mem_iff.mpr (mem_append_left _ he))
    obtain ⟨hp', hinv⟩ := hinv₁.append hC hon hlk₁ stored
    rw [hb] at hp' hinv
    rw [hlp₁]
    refine ⟨_, rfl, ?_⟩
    cases hrem with
    | absent _ heq =>
      subst heq
      exact hd.put hC (.added hlk hp') hinv (increment_of_perm hd.count hp') hon (hC.refl key)
    | removed hsm hp hcn _ =>
      refine hd.put hC (.replaced (hC.trans _ _ _ hsm (hC.symm _ _ hon)) hp hp') hinv ?_ hon (hC.refl key)
      -- One more for the new pair, one less for the old one.
      have hbc : decrement (increment d.count) = d.count := by
        rw [hd.count, increment, decrement]
        omega
      have hlen := hp.length_eq.trans hp'.length_eq.symm
      exact hcn.trans (hbc.trans (hd.count.trans (congrArg (· % 2 ^ 32) hlen)))

def Fits (C : CFCallBacks) (_ : DictionaryHostObject) : Call → Prop
  | .insert key retainedKey _ _ => C.retainKey = true → C.hashing.same key retainedKey = true
  | .remove _ => True

def note (C : CFCallBacks) (_ : DictionaryHostObject) (c : Call) (_ : Unit) (_ : DictionaryHostObject) :
    List (Event Id (Option Id)) :=
  match c with
  | .insert key _ value retainedValue => [.insert key (if C.retainValue then retainedValue else value)]
  | .remove key => [.remove key]

theorem call_sound {c} (hft : Fits C d c) :
    ∃ d', call C d c = .ok ((), d') ∧ Sound C.hashing (log ++ note C d c () d') d' := by
  cases c with
  | insert key retainedKey value retainedValue =>
    obtain ⟨d', heq, hsn⟩ := insert_sound hC hd key retainedKey value retainedValue hft
    exact ⟨d', by simp [call, heq], hsn⟩
  | remove key =>
    obtain ⟨hrem, hinv⟩ := remove_spec hC hd.inv key
    exact ⟨_, rfl, hrem.sound hC hd hinv⟩

end

end CFDictionaryHostObject

structure IsMap (H : Hashing Nat Id) (log : List (Event Id (Option Id))) (d : DictionaryHostObject)
    (lookup : Id → Option Id) : Prop where
  lookup : ∀ key, lookup key = (latest H.same log key).join
  distinct : d.map.pairs.Pairwise fun a b => H.same a.1 b.1 = false
  count : d.count = d.map.pairs.length

theorem Sound.isMap {H} {log} {d}
    {lookup} (h : Sound H log d) (hH : H.Lawful)
    (hlp : ∀ k, lookup k = ((d.map.bucket (H.hash k)).find? fun e => H.same e.1 k).bind (·.2)) :
    IsMap H log d lookup := by
  refine ⟨fun key => (hlp key).trans (h.find?_bind hH key), h.inv.distinct, ?_⟩
  rw [h.count, Nat.mod_eq_of_lt (h.length_lt hH)]

/-- In every state that a dictionary of either kind reaches, the next call returns, and the dictionary is the finite map
    of the calls so far. -/
theorem isMap_of_logs {M : Hashing Nat Id} (hM : M.Lawful) {C : CFCallBacks} (hC : C.hashing.Lawful) :
    (∀ refs log s, Logs (call M) (Fits M) note (.empty, refs) log s → IsMap M log s.1 (s.1.lookup M) ∧
        ∀ c, ∃ t, call M s c = .ok ((), t)) ∧
    ∀ log d, Logs (call C) (Fits C) (note C) .empty log d → IsMap C.hashing log d (lookup C d) ∧
        ∀ c, Fits C d c → ∃ t, call C d c = .ok ((), t) := by
  refine ⟨fun refs log s hlogs => ?_, fun log d hlogs => ?_⟩
  · have hs : Sound M log s.1 := hlogs.invariant (P := fun log s => Sound M log s.1) sound_empty
      fun log s t c r hs hfits hcall => call_sound hM hs hfits hcall
    refine ⟨hs.isMap hM (lookup_eq hM), fun c => ?_⟩
    cases c with
    | insert | remove => exact ⟨_, rfl⟩
  · have hd : Sound C.hashing log d := by
      refine hlogs.invariant sound_empty fun log s t c r hs hfits hcall => ?_
      obtain ⟨d', hcall', hsound⟩ := call_sound hC hs hfits
      rw [hcall] at hcall'
      cases hcall'
      exact hsound
    refine ⟨hd.isMap hC lookup_eq, fun c hfits => ?_⟩
    obtain ⟨d', hcall, -⟩ := call_sound hC hd hfits
    exact ⟨d', hcall⟩

/-- Two keys with the same hash in a dictionary of the one kind, a key that is inserted again in one of the other. -/
theorem isMap_of_logs_colliding : ∃ (M : Hashing Nat Id) (C : CFCallBacks) (a b : Id),
    (∃ log s, Logs (call M) (Fits M) note (.empty, fun _ => 0) log s ∧
      s.1.map.entries = [(0, [(a, none), (b, some a)])] ∧ IsMap M log s.1 (s.1.lookup M)) ∧
    ∃ log d, Logs (call C) (Fits C) (note C) .empty log d ∧
      d.map.entries = [(0, [(a, some b)])] ∧ IsMap C.hashing log d (lookup C d) := by
  let M : Hashing Nat Id := ⟨fun _ => 0, (· == ·)⟩
  let C : CFCallBacks := ⟨some fun _ => 0, none, false, false⟩
  let a : Id := ⟨4, by decide, by decide⟩
  let b : Id := ⟨8, by decide, by decide⟩
  obtain ⟨s, hs, hentries⟩ : ∃ s, Runs (call M) (Fits M) (.empty, fun _ => 0) s ∧
      s.1.map.entries = [(0, [(a, none), (b, some a)])] :=
    ⟨_, .step (a := .insert b b (some a) true) (.step (a := .insert a a none true) .start (fun _ => rfl) rfl) (fun _ => rfl) rfl,
      rfl⟩
  obtain ⟨d, hd, hpair⟩ : ∃ d, Runs (call C) (Fits C) .empty d ∧ d.map.entries = [(0, [(a, some b)])] :=
    ⟨_, .step (a := .insert a a (some b) none) (.step (a := .insert a a none none) .start (by rintro ⟨⟩) rfl) (by rintro ⟨⟩) rfl,
      rfl⟩
  have hmaps := isMap_of_logs (Hashing.lawful_beq fun _ => 0) (C := C) (Hashing.lawful_beq fun _ => 0)
  obtain ⟨log, hlog⟩ : ∃ log, Logs _ _ note _ log s := Logs.of_runs hs
  obtain ⟨log', hlog'⟩ : ∃ log, Logs _ _ (note C) _ log d := Logs.of_runs hd
  exact ⟨M, C, a, b, ⟨log, s, hlog, hentries, (hmaps.1 _ _ _ hlog).1⟩, log', d, hlog', hpair, (hmaps.2 _ _ hlog').1⟩

end TouchHLE.Foundation
