import TouchHLE.Theorems.CoreFoundation.CFDictionary
import Mathlib.Data.List.TakeWhile

/-! The whole life of a dictionary with callbacks. As long as it is empty when it is deallocated or emptied by
    `removeAllObjects`, its keys and values are only touched through its callbacks. -/

namespace TouchHLE.CoreFoundation
open Lib Assoc List

namespace CFDictionary
variable {σ : Type} {K : CFDictionaryKeyCallBacks σ} {V : CFDictionaryValueCallBacks σ} {s t : CFDictionary σ}
  {d d' : CFDictionaryHostObject σ} {g : Guest σ} {H : Hashing Nat VoidPtr} {key value : VoidPtr}

def callbacks : Option (CFDictionaryKeyCallBacks σ) → Option (CFDictionaryValueCallBacks σ) →
    CFDictionaryKeyCallBacks σ × CFDictionaryValueCallBacks σ
  | some K, some V => (K, V)
  | _, _ => (⟨none, none, none, none⟩, ⟨none, none⟩)

def pairs (s : CFDictionary σ) : List (VoidPtr × VoidPtr) := s.hostObject.elim [] (·.pairs)

structure Inv (K : CFDictionaryKeyCallBacks σ) (V : CFDictionaryValueCallBacks σ) (s : CFDictionary σ) : Prop where
  through : ∀ t ∈ s.guest.touches, Through K V t
  sound : ∀ d, s.hostObject = some d → d.Sound K V
  balance : ∀ role x, Given K V role → s.guest.retains role x = s.guest.releases role x + held s.pairs role x

structure Kept (K : CFDictionaryKeyCallBacks σ) (V : CFDictionaryValueCallBacks σ) (d : CFDictionaryHostObject σ) (g : Guest σ)
    (t : CFDictionary σ) (d' : CFDictionaryHostObject σ) : Prop where
  host : t.hostObject = some d'
  sound : d'.Sound K V
  ledger : Ledger K V g (held d.pairs) t.guest (held d'.pairs)

theorem Kept.inv (hs : Inv K V s) (hd : s.hostObject = some d) (h : Kept K V d s.guest t d') : Inv K V t where
  through := h.ledger.through hs.through
  sound := fun d'' hd'' => by
    rw [h.host] at hd''
    cases hd''
    exact h.sound
  balance := fun role x hgn => by
    have hbe := hs.balance role x hgn
    have hst := h.ledger.balance role x hgn
    rw [pairs, hd, Option.elim_some] at hbe
    rw [pairs, h.host, Option.elim_some]
    omega

section
variable (hd : s.hostObject = some d)
include hd

theorem borrow_eq : s.borrow = .ok d := by
  rw [borrow, hd]

theorem objectForKey_eq (key : VoidPtr) :
    s.objectForKey key = .ok ((d.find s.guest key).1.elim 0 (·.2.2.2), ⟨some d, (d.find s.guest key).2⟩) := by
  rw [objectForKey, borrow_eq hd, ok_bind, CFDictionaryHostObject.lookup]
  cases (d.find s.guest key).1 <;> rfl

theorem setObjectForKey_ok (hsn : d.Sound K V) {object}
    (h : s.setObjectForKey object key = .ok t) : ∃ d', Kept K V d s.guest t d' := by
  unfold setObjectForKey at h
  split at h
  · cases h
  · rename_i hkey
    obtain ⟨d', g', hise, hsn', hldg⟩ := CFDictionaryHostObject.insert_spec hsn s.guest hkey object
    rw [borrow_eq hd, ok_bind, hise] at h
    cases h
    exact ⟨d', rfl, hsn', hldg⟩

theorem removeValue_ok (hsn : d.Sound K V) (h : s.removeValue key = .ok t) :
    ∃ d', Kept K V d s.guest t d' ∧ ∀ H, Consistent K H → Took H d.pairs key d'.pairs := by
  unfold removeValue removeObjectForKey at h
  split at h
  · cases h
  · rw [borrow_eq hd, ok_bind] at h
    cases h
    have hr := CFDictionaryHostObject.remove_spec hsn.uses s.guest key
    exact ⟨_, ⟨rfl, hr.sound hsn, hr.ledger⟩, fun H hC => (hr.took H hC (hsn.table H hC).1).1⟩

theorem addValue_ok (hsn : d.Sound K V) (h : s.addValue key value = .ok t) : ∃ d', Kept K V d s.guest t d' := by
  have hfn := CFDictionaryHostObject.find_ledger hsn.uses s.guest key
  unfold addValue at h
  rw [objectForKey_eq hd, ok_bind] at h
  split at h
  · obtain ⟨d', hkp⟩ := setObjectForKey_ok rfl hsn h
    exact ⟨d', hkp.host, hkp.sound, (hfn _).trans hkp.ledger⟩
  · cases h
    exact ⟨d, rfl, hsn, hfn _⟩

end

/-- Removing all keys one by one leaves nothing, if the stored keys are found. -/
theorem removeValues_ok : ∀ {keys : List VoidPtr} {s : CFDictionary σ} {d : CFDictionaryHostObject σ}, s.hostObject = some d →
    d.Sound K V → keys.foldlM removeValue s = .ok t → ∃ d', Kept K V d s.guest t d' ∧
      ∀ H, Consistent K H → keys.Perm (d.pairs.map Prod.fst) → d'.pairs = []
  | [], s, d, hd, hsn, h => by
    cases h
    exact ⟨d, ⟨hd, hsn, .refl _ _⟩, fun H _ hp => map_eq_nil_iff.mp hp.nil_eq.symm⟩
  | k :: keys, s, d, hd, hsn, h => by
    obtain ⟨s₁, hrmv, h⟩ := bind_eq_ok.mp h
    obtain ⟨d₁, hkp, htoo⟩ := removeValue_ok hd hsn hrmv
    obtain ⟨d', hkp', hem⟩ := removeValues_ok hkp.host hkp.sound h
    refine ⟨d', ⟨hkp'.host, hkp'.sound, hkp.ledger.trans hkp'.ledger⟩, fun H hC hp => hem H hC ?_⟩
    obtain ⟨⟨k', v⟩, hmem, rfl⟩ := mem_map.mp (hp.mem_iff.mp mem_cons_self)
    have hpr := (htoo H hC).of_mem hC.lawful (hsn.table H hC).1.distinct hmem
    exact (hp.trans (hpr.map Prod.fst)).cons_inv

theorem removeAllValues_ok (hd : s.hostObject = some d) (hsn : d.Sound K V) {keys}
    (h : s.removeAllValues keys = .ok t) : ∃ d', Kept K V d s.guest t d' ∧
      ∀ H, Consistent K H → keys.Perm (d.pairs.map Prod.fst) → d'.pairs = [] := by
  rw [removeAllValues, borrow_eq hd, ok_bind] at h
  obtain ⟨d', hkp, hem⟩ := removeValues_ok hd hsn h
  refine ⟨d', hkp, fun H hC hp => hem H hC ?_⟩
  -- No stored key is the end of the enumeration.
  have hall : ∀ k ∈ keys, decide (k ≠ 0) = true := fun k hk => by
    obtain ⟨e, he, rfl⟩ := mem_map.mp (hp.mem_iff.mp hk)
    exact decide_eq_true ((hsn.table H hC).2 e he)
  rwa [takeWhile_eq_self_iff.mpr hall]

/-- The keys that are given to `CFDictionaryRemoveAllValues` are those of the dictionary, in some order. -/
def Fits (s : CFDictionary σ) : Call σ → Prop
  | .removeAllValues keys => keys.Perm (s.pairs.map Prod.fst)
  | _ => True

def Finds (s : CFDictionary σ) (key value : VoidPtr) : Prop :=
  ∃ d hash pos k, s.hostObject = some d ∧ (d.find s.guest key).1 = some (hash, pos, k, value)

/-- With consistent callbacks, what is found is what is stored under the same key. -/
theorem finds_iff (hs : Inv K V s) (hC : Consistent K H) : s.Finds key value ↔ Holds H s.pairs key value := by
  cases hd : s.hostObject with
  | none => simp [Finds, hd, pairs, Holds]
  | some d =>
    have hsn := hs.sound d hd
    obtain ⟨hinv, -⟩ := hsn.table H hC
    obtain ⟨hfd, hno⟩ := CFDictionaryHostObject.find_same hsn.uses hC s.guest key
    rw [pairs, hd, Option.elim_some]
    constructor
    · rintro ⟨d', hash, pos, k, hd', hf⟩
      cases hd.symm.trans hd'
      obtain ⟨rfl, hsm⟩ := hfd _ _ _ hf
      have hmem := mem_of_getElem? (CFDictionaryHostObject.getElem?_of_find hf)
      exact ⟨k, (Buckets.pairs_perm _ _).mem_iff.mpr (mem_append_left _ hmem), hsm⟩
    · rintro ⟨k, hmem, hsm⟩
      cases hf : (d.find s.guest key).1 with
      | none => exact absurd ⟨k, hmem, hsm⟩ (hinv.lacks hC.lawful (hno hf)).not_holds
      | some f =>
        obtain ⟨hash, pos, k', v'⟩ := f
        obtain ⟨rfl, hsm'⟩ := hfd _ _ _ hf
        have hmem' := mem_of_getElem? (CFDictionaryHostObject.getElem?_of_find hf)
        have hhs' : Holds H d.pairs key v' := ⟨k', (Buckets.pairs_perm _ _).mem_iff.mpr (mem_append_left _ hmem'), hsm'⟩
        -- A table holds one value under a key.
        have hvl : v' = value := Option.some.inj (((hinv.find?_eq_some_iff hC.lawful).mpr hhs').symm.trans
            ((hinv.find?_eq_some_iff hC.lawful).mpr ⟨k, hmem, hsm⟩))
        exact ⟨d, _, pos, k', hd, hvl ▸ hf⟩

/-- The calls that keep the ledger: nothing is stored under a key as `NULL` when a value is added for it, the callbacks
    are consistent when all values are removed, and the dictionary is empty when the objects are removed by a message
    and, if it retains something, when it is deallocated. -/
def Careful (K : CFDictionaryKeyCallBacks σ) (V : CFDictionaryValueCallBacks σ) (s : CFDictionary σ) : Call σ → Prop
  | .addValue key _ => ¬s.Finds key 0
  | .removeAllValues _ => ∃ H, Consistent K H
  | .removeAllObjects => s.pairs = []
  | .dealloc => ∀ role, (retainOf K V role).isSome = true → s.pairs = []
  | _ => True

theorem host_of_perform {c} (h : s.perform c = .ok t) :
    (∃ d, s.hostObject = some d) ∨ ∃ state, c = .elsewhere state := by
  cases hd : s.hostObject with
  | some d => exact .inl ⟨d, rfl⟩
  | none =>
    have hbr : s.borrow = .error .noHostObject := by rw [borrow, hd]
    cases c with
    | elsewhere state => exact .inr ⟨state, rfl⟩
    | setValue key value =>
      simp only [perform, setValue, setObjectForKey, hbr, error_bind] at h
      split at h <;> cases h
    | removeValue key =>
      simp only [perform, removeValue, removeObjectForKey, hbr, error_bind] at h
      split at h <;> cases h
    | _ => simp [perform, addValue, objectForKey, removeAllValues, removeAllObjects, dealloc, hbr] at h

theorem removeAllObjects_ok (hd : s.hostObject = some d) (hsn : d.Sound K V) (hem : d.pairs = [])
    (h : s.removeAllObjects = .ok t) : ∃ d', Kept K V d s.guest t d' := by
  have hpi : d.superclass.map.pairs = [] := hem
  rw [removeAllObjects, borrow_eq hd, ok_bind, hpi] at h
  cases h
  refine ⟨_, rfl, ⟨⟨hsn.uses.key, hsn.uses.value⟩, rfl, fun H _ => ⟨Buckets.inv_empty, ?_⟩⟩, ?_⟩
  · intro e he
    exact absurd he not_mem_nil
  · rw [hem]
    exact .refl _ _

theorem dealloc_inv (hs : Inv K V s) (hem : ∀ role, (retainOf K V role).isSome = true → s.pairs = [])
    (h : s.dealloc = .ok t) : Inv K V t := by
  obtain ⟨d, -, h⟩ := bind_eq_ok.mp h
  cases h
  refine ⟨hs.through, ?_, fun role x hgn => ?_⟩
  · rintro d ⟨⟩
  · have hbe := hs.balance role x hgn
    rw [hem role hgn.1] at hbe
    exact hbe

theorem perform_inv (hs : Inv K V s) {c} (hc : s.Careful K V c) (h : s.perform c = .ok t) : Inv K V t := by
  rcases host_of_perform h with ⟨d, hd⟩ | ⟨state, rfl⟩
  · have hsn := hs.sound d hd
    cases c with
    | addValue key value =>
      obtain ⟨d', hkp⟩ := addValue_ok hd hsn h
      exact hkp.inv hs hd
    | setValue key value =>
      obtain ⟨d', hkp⟩ := setObjectForKey_ok hd hsn h
      exact hkp.inv hs hd
    | removeValue key =>
      obtain ⟨d', hkp, -⟩ := removeValue_ok hd hsn h
      exact hkp.inv hs hd
    | removeAllValues keys =>
      obtain ⟨d', hkp, -⟩ := removeAllValues_ok hd hsn h
      exact hkp.inv hs hd
    | removeAllObjects =>
      have hem : d.pairs = [] := by
        simpa [Careful, pairs, hd] using hc
      obtain ⟨d', hkp⟩ := removeAllObjects_ok hd hsn hem h
      exact hkp.inv hs hd
    | dealloc => exact dealloc_inv hs hc h
    | elsewhere state =>
      cases h
      exact ⟨hs.through, hs.sound, hs.balance⟩
  · cases h
    exact ⟨hs.through, hs.sound, hs.balance⟩

theorem createMutable_inv {state : σ} {allocator} {capacity : Int} {key}
    {value} (h : createMutable state allocator capacity key value = .ok s) :
    Inv (callbacks key value).1 (callbacks key value).2 s := by
  unfold createMutable at h
  split at h
  · cases h
  split at h
  · cases h
  obtain ⟨d, hii, h⟩ := bind_eq_ok.mp h
  cases h
  have hd : d.superclass = .empty ∧ d.Uses (callbacks key value).1 (callbacks key value).2 := by
    cases key with
    | none =>
      cases hii
      exact ⟨rfl, rfl, rfl⟩
    | some K =>
      cases value with
      | none => cases hii
      | some V =>
        cases hii
        exact ⟨rfl, rfl, rfl⟩
  have hpi : d.pairs = [] := by
    rw [CFDictionaryHostObject.pairs, hd.1]
    rfl
  refine ⟨fun t ht => absurd ht not_mem_nil, fun d' hd' => ?_, fun role x _ => ?_⟩
  · cases hd'
    refine ⟨hd.2, ?_, fun H _ => ⟨?_, fun e he => ?_⟩⟩
    · rw [hpi, hd.1]
      rfl
    · rw [hd.1]
      exact Buckets.inv_empty
    · rw [hpi] at he
      exact absurd he not_mem_nil
  · rw [pairs, Option.elim_some, hpi]
    rfl

theorem retains_eq_zero (hs : Inv K V s) {role} (hnl : (retainOf K V role).isSome = false) (x : VoidPtr) :
    s.guest.retains role x = 0 := by
  refine countP_eq_zero.mpr fun touch htc hret => ?_
  have htho := hs.through touch htc
  cases touch with
  | retain role' pointer stored =>
    obtain ⟨rfl, -⟩ : role' = role ∧ stored = x := by simpa [Touch.retains] using hret
    exact absurd htho (by simp [Through, hnl])
  | _ => cases hret

theorem releases_eq_zero (hs : Inv K V s) {role} (hnl : (releaseOf K V role).isSome = false) (x : VoidPtr) :
    s.guest.releases role x = 0 := by
  refine countP_eq_zero.mpr fun touch htc hrel => ?_
  have htho := hs.through touch htc
  cases touch with
  | release role' pointer =>
    obtain ⟨rfl, -⟩ : role' = role ∧ pointer = x := by simpa [Touch.releases] using hrel
    exact absurd htho (by simp [Through, hnl])
  | _ => cases hrel

/-- When the dictionary is gone, everything that was retained has been released. -/
theorem Inv.balanced (hs : Inv K V s) (hprd : ∀ role, (retainOf K V role).isSome = (releaseOf K V role).isSome)
    (hgon : s.hostObject = none) (role : Role) (x : VoidPtr) : s.guest.retains role x = s.guest.releases role x := by
  cases hret : (retainOf K V role).isSome with
  | true =>
    have hbln := hs.balance role x ⟨hret, hprd role ▸ hret⟩
    rw [pairs, hgon] at hbln
    exact hbln
  | false => rw [retains_eq_zero hs hret, releases_eq_zero hs (hprd role ▸ hret)]

theorem addValue_of_finds (hnl : ¬s.Finds key 0) {w} (hfnd : s.Finds key w) (h : s.addValue key value = .ok t) :
    t.hostObject = s.hostObject := by
  have hw : w ≠ 0 := by
    rintro rfl
    exact hnl hfnd
  obtain ⟨d, hash, pos, k, hd, hf⟩ := hfnd
  rw [addValue, objectForKey_eq hd, ok_bind, hf, Option.elim_some, if_neg hw] at h
  cases h
  exact hd.symm

/-- For callbacks of which `retain` and `release` come in pairs, in every run of careful calls: keys and values are
    touched only through the callbacks; when the dictionary is gone every key and value has been released as often as
    it was retained; adding a value for a key that is present leaves the dictionary as it is; and after all values have
    been removed the count is zero. -/
theorem touches_of_runs (state : σ) (allocator : Bool) (capacity : Int) (key : Option (CFDictionaryKeyCallBacks σ))
    (value : Option (CFDictionaryValueCallBacks σ)) (s₀ s : CFDictionary σ)
    (hcreate : createMutable state allocator capacity key value = .ok s₀)
    (hpaired : ∀ role, (retainOf (callbacks key value).1 (callbacks key value).2 role).isSome =
      (releaseOf (callbacks key value).1 (callbacks key value).2 role).isSome)
    (hrun : Runs call (fun s c => s.Fits c ∧ s.Careful (callbacks key value).1 (callbacks key value).2 c) s₀ s) :
    (∀ touch ∈ s.guest.touches, Through (callbacks key value).1 (callbacks key value).2 touch) ∧
      (s.hostObject = none → ∀ role x, s.guest.retains role x = s.guest.releases role x) ∧
      ∀ c t, s.Fits c → s.Careful (callbacks key value).1 (callbacks key value).2 c → s.call c = .ok ((), t) →
        (∀ k v w, c = .addValue k v →
          s.Finds k w ∨ (∃ H, Consistent (callbacks key value).1 H ∧ Holds H s.pairs k w) → t.hostObject = s.hostObject) ∧
        ∀ keys, c = .removeAllValues keys → ∃ d, t.hostObject = some d ∧ d.superclass.count = 0 := by
  have hs : Inv (callbacks key value).1 (callbacks key value).2 s := by
    refine hrun.invariant (createMutable_inv hcreate) fun s t c r hs hg hcall => ?_
    obtain ⟨t', hcall, heq⟩ := bind_eq_ok.mp hcall
    cases heq
    exact perform_inv hs hg.2 hcall
  refine ⟨hs.through, hs.balanced hpaired, fun c t hfits hcareful hcall => ?_⟩
  obtain ⟨t', hperform, heq⟩ := bind_eq_ok.mp hcall
  cases heq
  constructor
  · rintro k v w rfl (hfinds | ⟨H, hC, hholds⟩)
    · exact addValue_of_finds hcareful hfinds hperform
    · exact addValue_of_finds hcareful ((finds_iff hs hC).mpr hholds) hperform
  · rintro keys rfl
    obtain ⟨H, hC⟩ := hcareful
    obtain ⟨d, hd⟩ := (host_of_perform hperform).resolve_right (by rintro ⟨state, ⟨⟩⟩)
    obtain ⟨d', hkept, hempty⟩ := removeAllValues_ok hd (hs.sound d hd) hperform
    have hp : keys.Perm (d.pairs.map Prod.fst) := by simpa [Fits, pairs, hd] using hfits
    refine ⟨d', hkept.host, ?_⟩
    rw [hkept.sound.count, hempty H hC hp]
    rfl

def plainKeys : CFDictionaryKeyCallBacks Unit := ⟨some fun s k => (k, s), some fun s _ => s, none, none⟩

def plainValues : CFDictionaryValueCallBacks Unit := ⟨some fun s v => (v, s), some fun s _ => s⟩

/-- Without callbacks for hashing and comparing, the pointers are used. -/
theorem consistent_plainKeys : Consistent plainKeys ⟨UInt32.toNat, (· == ·)⟩ where
  lawful := Hashing.lawful_beq _
  hash := fun _ _ => rfl
  equal := fun _ _ _ => rfl
  retain := fun _ _ hk => ⟨hk, beq_self_eq_true _⟩

/-- A value that is set, not replaced by another one, and removed before the end. -/
theorem touches_of_runs_plain : ∃ s₀ s,
    createMutable () true 0 (some plainKeys) (some plainValues) = .ok s₀ ∧
      Runs call (fun s c => s.Fits c ∧ s.Careful plainKeys plainValues c) s₀ s ∧ s.hostObject = none ∧
      s.guest.retains .key 1 = 1 ∧ s.guest.retains .key 1 = s.guest.releases .key 1 := by
  have hrun : ∃ s₀ s, createMutable () true 0 (some plainKeys) (some plainValues) = .ok s₀ ∧
      Runs call (fun s c => s.Fits c ∧ s.Careful plainKeys plainValues c) s₀ s ∧ s.hostObject = none ∧
      s.guest.retains .key 1 = 1 := by
    refine ⟨_, _, rfl, .step (a := .dealloc) (.step (a := .removeAllValues [1]) (.step (a := .addValue 1 3)
      (.step (a := .setValue 1 2) .start ⟨trivial, trivial⟩ rfl) ⟨trivial, ?_⟩ rfl)
      ⟨.refl _, _, consistent_plainKeys⟩ rfl) ⟨trivial, fun _ _ => rfl⟩ rfl, rfl, rfl⟩
    rintro ⟨d, hash, pos, k, hd, hf⟩
    cases hd
    cases hf
  obtain ⟨s₀, s, hcreate, hrun, hgone, hone⟩ := hrun
  have hpaired : ∀ role, (retainOf plainKeys plainValues role).isSome = (releaseOf plainKeys plainValues role).isSome := by
    rintro (_ | _) <;> rfl
  exact ⟨s₀, s, hcreate, hrun, hgone, hone,
    (touches_of_runs () true 0 (some plainKeys) (some plainValues) s₀ s hcreate hpaired hrun).2.1 hgone .key 1⟩

/-- Without callbacks, `removeAllObjects` sends messages to what is stored; a dictionary that is deallocated releases
    nothing; `NULL` is replaced when a value is added for its key; and a dictionary whose `retain` returns another
    pointer is not emptied. -/
theorem touches_fail :
    (∃ s₀ s, createMutable () true 0 none none = .ok s₀ ∧ Runs call (fun s c => s.Fits c) s₀ s ∧
      ∃ touch ∈ s.guest.touches, touch = .message 1) ∧
    (∃ s₀ s, createMutable () true 0 (some plainKeys) (some plainValues) = .ok s₀ ∧
      Runs call (fun s c => s.Fits c) s₀ s ∧ s.hostObject = none ∧ s.guest.retains .key 1 = 1 ∧ s.guest.releases .key 1 = 0) ∧
    (∃ s₀ s t, createMutable () true 0 none none = .ok s₀ ∧ Runs call (fun s c => s.Fits c) s₀ s ∧
      s.call (.addValue 1 2) = .ok ((), t) ∧ s.Finds 1 0 ∧ s.pairs = [(1, 0)] ∧ t.pairs = [(1, 2)]) ∧
    ∃ s₀ s t d,
      createMutable () true 0 (some { plainKeys with retain := some fun s k => (k + 4, s) }) (some plainValues) = .ok s₀ ∧
      Runs call (fun s c => s.Fits c) s₀ s ∧ s.Fits (.removeAllValues [5]) ∧ s.call (.removeAllValues [5]) = .ok ((), t) ∧
      t.hostObject = some d ∧ d.superclass.count = 1 := by
  refine ⟨⟨_, _, rfl, .step (a := .removeAllObjects) (.step (a := .setValue 1 2) .start trivial rfl) trivial rfl,
      _, mem_cons_self, rfl⟩,
    ⟨_, _, rfl, .step (a := .dealloc) (.step (a := .setValue 1 2) .start trivial rfl) trivial rfl, rfl, rfl, rfl⟩,
    ⟨_, _, _, rfl, .step (a := .setValue 1 0) .start trivial rfl, rfl, ⟨_, _, _, _, rfl, rfl⟩, rfl, rfl⟩,
    _, _, _, _, rfl, .step (a := .setValue 1 2) .start trivial rfl, .refl _, rfl, rfl, rfl⟩

end CFDictionary
end TouchHLE.CoreFoundation
