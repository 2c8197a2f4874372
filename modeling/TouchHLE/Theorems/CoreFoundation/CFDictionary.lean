import TouchHLE.CoreFoundation.CFDictionary
import TouchHLE.Theorems.Foundation.NSDictionary
import Mathlib.Algebra.Group.Pi.Basic

/-! What a dictionary with callbacks does to its keys and values. Each operation is entered in a ledger: the calls of
    `retain` less those of `release` are what is stored more than before. -/

namespace TouchHLE.CoreFoundation
open Lib Assoc List Option Buckets
open Foundation (increment decrement increment_of_perm decrement_of_perm)

variable {σ : Type} {K : CFDictionaryKeyCallBacks σ} {V : CFDictionaryValueCallBacks σ}
  {d d' : CFDictionaryHostObject σ} {g g' g'' : Guest σ} {H : Hashing Nat VoidPtr} {key value x : VoidPtr}

def Role.of : Role → VoidPtr × VoidPtr → VoidPtr
  | .key, pair => pair.1
  | .value, pair => pair.2

variable (role : Role)

def Touch.retains (x : VoidPtr) : Touch → Bool
  | .retain role' _ stored => role' == role && stored == x
  | _ => false

def Touch.releases (x : VoidPtr) : Touch → Bool
  | .release role' pointer => role' == role && pointer == x
  | _ => false

def Guest.retains (g : Guest σ) (role : Role) (x : VoidPtr) : Nat := g.touches.countP (·.retains role x)

def Guest.releases (g : Guest σ) (role : Role) (x : VoidPtr) : Nat := g.touches.countP (·.releases role x)

def retainOf (K : CFDictionaryKeyCallBacks σ) (V : CFDictionaryValueCallBacks σ) : Role → Option (σ → VoidPtr → VoidPtr × σ)
  | .key => K.retain
  | .value => V.retain

def releaseOf (K : CFDictionaryKeyCallBacks σ) (V : CFDictionaryValueCallBacks σ) : Role → Option (σ → VoidPtr → σ)
  | .key => K.release
  | .value => V.release

def Through (K : CFDictionaryKeyCallBacks σ) (V : CFDictionaryValueCallBacks σ) : Touch → Prop
  | .hash _ => K.hash.isSome = true
  | .equal _ _ => K.equal.isSome = true
  | .retain role _ _ => (retainOf K V role).isSome = true
  | .release role _ => (releaseOf K V role).isSome = true
  | .message _ => False

def Given (K : CFDictionaryKeyCallBacks σ) (V : CFDictionaryValueCallBacks σ) (role : Role) : Prop :=
  (retainOf K V role).isSome = true ∧ (releaseOf K V role).isSome = true

/-- From one state of the guest to a later one, only callbacks are called, and what is held changes by what is
    retained and released. -/
structure Ledger (K : CFDictionaryKeyCallBacks σ) (V : CFDictionaryValueCallBacks σ) (g : Guest σ)
    (held : Role → VoidPtr → Nat) (g' : Guest σ) (held' : Role → VoidPtr → Nat) : Prop where
  through : (∀ t ∈ g.touches, Through K V t) → ∀ t ∈ g'.touches, Through K V t
  balance : ∀ role x, Given K V role →
    g'.retains role x + g.releases role x + held role x = g.retains role x + g'.releases role x + held' role x

def one (pointer : VoidPtr) : Role → VoidPtr → Nat := fun role' x => if role = role' ∧ pointer = x then 1 else 0

def held (l : List (VoidPtr × VoidPtr)) : Role → VoidPtr → Nat := fun role x => (l.map role.of).count x

theorem held_cons (pair : VoidPtr × VoidPtr) (l : List (VoidPtr × VoidPtr)) :
    held (pair :: l) = held l + one .value pair.2 + one .key pair.1 := by
  funext role x
  cases role <;>
    simp only [held, one, map_cons, count_cons, Role.of, Pi.add_apply, beq_iff_eq, true_and, reduceCtorEq,
      false_and, if_false, add_zero]

theorem held_perm {l l'} (h : l.Perm l') : held l = held l' := by
  funext role x
  exact (h.map _).count_eq x

namespace Ledger
variable {h h' h'' k : Role → VoidPtr → Nat}

theorem refl (g : Guest σ) (h : Role → VoidPtr → Nat) : Ledger K V g h g h := ⟨id, fun _ _ _ => by omega⟩

theorem trans (h₁ : Ledger K V g h g' h') (h₂ : Ledger K V g' h' g'' h'') : Ledger K V g h g'' h'' where
  through := fun ht => h₂.through (h₁.through ht)
  balance := fun role x hgn => by
    have := h₁.balance role x hgn
    have := h₂.balance role x hgn
    omega

theorem frame (hl : Ledger K V g h g' h') (k : Role → VoidPtr → Nat) : Ledger K V g (h + k) g' (h' + k) where
  through := hl.through
  balance := fun role x hgn => by
    have := hl.balance role x hgn
    simp only [Pi.add_apply]
    omega

theorem touch {t} (ht : Through K V t) (s : σ)
    (hbln : ∀ role x, h role x + (if t.retains role x then 1 else 0) = h' role x + if t.releases role x then 1 else 0) :
    Ledger K V g h (g.touch t s) h' where
  through := fun hg t' ht' => by
    rcases mem_append.mp ht' with ht' | ht'
    · exact hg t' ht'
    · exact mem_singleton.mp ht' ▸ ht
  balance := fun role x _ => by
    have := hbln role x
    simp only [Guest.retains, Guest.releases, Guest.touch, countP_append, countP_singleton]
    omega

theorem ungiven (hnot : ¬Given K V role) (heq : ∀ role' x, role ≠ role' → h role' x = h' role' x) : Ledger K V g h g h' where
  through := id
  balance := fun role' x hgn => by
    rw [heq role' x fun hrol => hnot (hrol ▸ hgn)]

theorem retainWith (g : Guest σ) (p : VoidPtr) (h : Role → VoidPtr → Nat) :
    Ledger K V g h (retainWith role (retainOf K V role) g p).2
      (h + one role (CoreFoundation.retainWith role (retainOf K V role) g p).1) := by
  unfold CoreFoundation.retainWith
  cases hf : retainOf K V role with
  | none => exact .ungiven role (by simp [Given, hf]) fun role' x hne => by simp [one, hne]
  | some f => exact .touch (by simp [Through, hf]) _ fun role' x => by simp [Touch.retains, Touch.releases, one]

theorem releaseWith (g : Guest σ) (p : VoidPtr) (h : Role → VoidPtr → Nat) :
    Ledger K V g (h + one role p) (releaseWith role (releaseOf K V role) g p) h := by
  cases hf : releaseOf K V role with
  | none => exact .ungiven role (by simp [Given, hf]) fun role' x hne => by simp [one, hne]
  | some f => exact .touch (by simp [Through, hf]) _ fun role' x => by simp [Touch.retains, Touch.releases, one]

end Ledger

/-- The callbacks treat keys as `H` says, whatever the guest does in between, and a retained key is still the same key
    and not null. -/
structure Consistent (K : CFDictionaryKeyCallBacks σ) (H : Hashing Nat VoidPtr) : Prop where
  lawful : H.Lawful
  hash : ∀ s k, (K.hash.elim k.toNat fun f => (f s k).1) = H.hash k
  equal : ∀ s k k', (K.equal.elim (k == k') fun f => (f s k k').1) = H.same k k'
  retain : ∀ s k, k ≠ 0 → (K.retain.elim k fun f => (f s k).1) ≠ 0 ∧ H.same k (K.retain.elim k fun f => (f s k).1) = true

namespace CFDictionaryHostObject

def pairs (d : CFDictionaryHostObject σ) : List (VoidPtr × VoidPtr) := d.superclass.map.pairs

structure Uses (K : CFDictionaryKeyCallBacks σ) (V : CFDictionaryValueCallBacks σ) (d : CFDictionaryHostObject σ) : Prop where
  key : d.keyCallbacks = K
  value : d.valueCallbacks = V

theorem hash_ledger (hd : d.Uses K V) (g : Guest σ) (key : VoidPtr) (h : Role → VoidPtr → Nat) :
    Ledger K V g h (d.hash g key).2 h := by
  unfold hash
  rw [hd.key]
  cases hf : K.hash with
  | none => exact .refl g h
  | some f => exact .touch (by simp [Through, hf]) _ fun _ _ => rfl

theorem hash_eq (hd : d.Uses K V) (hC : Consistent K H) (g : Guest σ) (key : VoidPtr) : (d.hash g key).1 = H.hash key := by
  rw [← hC.hash g.state key, hash, hd.key]
  cases K.hash <;> rfl

theorem equalKeys_ledger (hd : d.Uses K V) (g : Guest σ) (k k' : VoidPtr) (h : Role → VoidPtr → Nat) :
    Ledger K V g h (d.equalKeys g k k').2 h := by
  unfold equalKeys
  rw [hd.key]
  cases hf : K.equal with
  | none => exact .refl g h
  | some f => exact .touch (by simp [Through, hf]) _ fun _ _ => rfl

theorem equalKeys_eq (hd : d.Uses K V) (hC : Consistent K H) (g : Guest σ) (k k' : VoidPtr) :
    (d.equalKeys g k k').1 = H.same k k' := by
  rw [← hC.equal g.state k k', equalKeys, hd.key]
  cases K.equal <;> rfl

theorem retainKey_spec (hd : d.Uses K V) (hC : Consistent K H) (g : Guest σ) (hkey : key ≠ 0) :
    (d.retainKey g key).1 ≠ 0 ∧ H.same key (d.retainKey g key).1 = true := by
  have h := hC.retain g.state key hkey
  unfold retainKey CoreFoundation.retainWith
  rw [hd.key]
  cases hf : K.retain with
  | none => simpa [hf] using h
  | some f => simpa [hf] using h

theorem search_ledger (hd : d.Uses K V) (key : VoidPtr) (h : Role → VoidPtr → Nat) :
    ∀ l g, Ledger K V g h (d.search key l g).2 h
  | [], g => .refl g h
  | pair :: l, g => by
    rw [search]
    split
    · exact equalKeys_ledger hd g pair.1 key h
    · exact (equalKeys_ledger hd g pair.1 key h).trans (search_ledger hd key h l _)

theorem getElem?_of_search {key} : ∀ {l : List (VoidPtr × VoidPtr)} {g : Guest σ} {pos : Nat} {pair : VoidPtr × VoidPtr},
    (d.search key l g).1 = some (pos, pair) → l[pos]? = some pair
  | [], _, _, _, h => by cases h
  | e :: l, g, pos, pair, h => by
    rw [search] at h
    split at h
    · cases h
      rfl
    · obtain ⟨⟨pos', pair'⟩, hf, heq⟩ := map_eq_some_iff.mp h
      cases heq
      rw [getElem?_cons_succ]
      exact getElem?_of_search hf

/-- With consistent callbacks the search finds the same key, or there is none. -/
theorem search_same (hd : d.Uses K V) (hC : Consistent K H) (key : VoidPtr) : ∀ l g,
    (∀ pos pair, (d.search key l g).1 = some (pos, pair) → H.same pair.1 key = true) ∧
      ((d.search key l g).1 = none → Lacks H l key)
  | [], g => ⟨fun _ _ h => (by cases h), fun _ => lacks_nil⟩
  | e :: l, g => by
    have hel := equalKeys_eq hd hC g e.1 key
    obtain ⟨hfd, hno⟩ := search_same hd hC key l (d.equalKeys g e.1 key).2
    rw [search]
    split
    · rename_i he
      refine ⟨fun pos pair h => ?_, fun h => (by cases h)⟩
      cases h
      exact hel ▸ he
    · rename_i he
      refine ⟨fun pos pair h => ?_, fun h => ?_⟩
      · obtain ⟨⟨pos', pair'⟩, hf, heq⟩ := map_eq_some_iff.mp h
        cases heq
        exact hfd _ _ hf
      · intro e' he'
        rcases mem_cons.mp he' with rfl | he'
        · rw [← hel]
          exact Bool.eq_false_of_not_eq_true he
        · exact hno (map_eq_none_iff.mp h) e' he'

theorem find_ledger (hd : d.Uses K V) (g : Guest σ) (key : VoidPtr) (h : Role → VoidPtr → Nat) :
    Ledger K V g h (d.find g key).2 h := by
  have hhh := hash_ledger hd g key h
  unfold find
  dsimp only
  cases d.superclass.map.lookup (d.hash g key).1 with
  | none => exact hhh
  | some collisions => exact hhh.trans (search_ledger hd key h collisions _)

theorem getElem?_of_find {hash pos : Nat} {pair} (h : (d.find g key).1 = some (hash, pos, pair)) :
    (d.superclass.map.bucket hash)[pos]? = some pair := by
  unfold find at h
  dsimp only at h
  cases hlp : d.superclass.map.lookup (d.hash g key).1 with
  | none =>
    rw [hlp] at h
    cases h
  | some collisions =>
    rw [hlp] at h
    obtain ⟨⟨pos', pair'⟩, hf, heq⟩ := map_eq_some_iff.mp h
    cases heq
    rw [bucket, hlp]
    exact getElem?_of_search hf

theorem find_same (hd : d.Uses K V) (hC : Consistent K H) (g : Guest σ) (key : VoidPtr) :
    (∀ hash pos pair, (d.find g key).1 = some (hash, pos, pair) → hash = H.hash key ∧ H.same pair.1 key = true) ∧
      ((d.find g key).1 = none → Lacks H (d.superclass.map.bucket (H.hash key)) key) := by
  have hhh := hash_eq hd hC g key
  unfold find
  dsimp only
  cases hlp : d.superclass.map.lookup (d.hash g key).1 with
  | none =>
    refine ⟨fun _ _ _ h => (by cases h), fun _ => ?_⟩
    rw [← hhh, bucket, hlp]
    exact lacks_nil
  | some collisions =>
    obtain ⟨hfd, hno⟩ := search_same hd hC key collisions (d.hash g key).2
    refine ⟨fun hash pos pair h => ?_, fun h => ?_⟩
    · obtain ⟨⟨pos', pair'⟩, hf, heq⟩ := map_eq_some_iff.mp h
      cases heq
      exact ⟨hhh, hfd _ _ hf⟩
    · rw [← hhh, bucket, hlp]
      exact hno (map_eq_none_iff.mp h)

/-- A count follows the number of pairs, and with consistent callbacks every key is found where it belongs. -/
structure Sound (K : CFDictionaryKeyCallBacks σ) (V : CFDictionaryValueCallBacks σ) (d : CFDictionaryHostObject σ) : Prop where
  uses : d.Uses K V
  count : d.superclass.count = d.pairs.length % 2 ^ 32
  table : ∀ H, Consistent K H → Inv H d.superclass.map ∧ ∀ e ∈ d.pairs, e.1 ≠ 0

structure Removal (K : CFDictionaryKeyCallBacks σ) (V : CFDictionaryValueCallBacks σ) (d : CFDictionaryHostObject σ) (g : Guest σ)
    (key : VoidPtr) (d' : CFDictionaryHostObject σ) (g' : Guest σ) : Prop where
  uses : d'.Uses K V
  ledger : Ledger K V g (held d.pairs) g' (held d'.pairs)
  pairs : d' = d ∨ ∃ pair, d.pairs.Perm (pair :: d'.pairs) ∧ d'.superclass.count = decrement d.superclass.count
  lookup : ∀ hash, d.superclass.map.lookup hash ≠ none → d'.superclass.map.lookup hash ≠ none
  took : ∀ H, Consistent K H → Inv H d.superclass.map → Took H d.pairs key d'.pairs ∧ Inv H d'.superclass.map

theorem remove_spec (hd : d.Uses K V) (g : Guest σ) (key : VoidPtr) :
    Removal K V d g key (d.remove g key).2.1 (d.remove g key).2.2 := by
  have hfn := find_ledger hd g key
  unfold remove
  dsimp only
  cases hf : (d.find g key).1 with
  | none =>
    exact ⟨hd, hfn _, .inl rfl, fun _ => id, fun H hC hinv =>
      ⟨.absent (hinv.lacks hC.lawful ((find_same hd hC g key).2 hf)) rfl, hinv⟩⟩
  | some f =>
    obtain ⟨hash, pos, pair⟩ := f
    dsimp only
    have hi := getElem?_of_find hf
    have hp := pairs_eraseIdx_perm hi
    refine ⟨⟨hd.key, hd.value⟩, ?_, .inr ⟨pair, hp, rfl⟩, fun hash' hne => ?_, fun H hC hinv => ?_⟩
    · rw [pairs, held_perm hp, held_cons, releaseKey, releaseValue, hd.key, hd.value]
      exact ((hfn _).trans (.releaseWith .key _ _ _)).trans (.releaseWith .value _ _ _)
    · by_cases heq : hash' = hash
      · subst heq
        rw [OrdMap.lookup_insert_self]
        rintro ⟨⟩
      · rwa [OrdMap.lookup_insert_of_ne _ heq]
    · obtain ⟨rfl, hsm⟩ := (find_same hd hC g key).1 hash pos pair hf
      exact ⟨.removed hsm hp, (hinv.eraseIdx hC.lawful hi hsm).2⟩

theorem Removal.sound (hd : d.Sound K V) (hr : Removal K V d g key d' g') : d'.Sound K V := by
  refine ⟨hr.uses, ?_, fun H hC => ?_⟩
  · rcases hr.pairs with rfl | ⟨pair, hp, hcn⟩
    · exact hd.count
    · exact hcn.trans (decrement_of_perm hd.count hp)
  · obtain ⟨hinv, hne⟩ := hd.table H hC
    refine ⟨(hr.took H hC hinv).2, fun e he => ?_⟩
    rcases hr.pairs with rfl | ⟨pair, hp, -⟩
    · exact hne e he
    · exact hne e (hp.mem_iff.mpr (mem_cons_of_mem _ he))

theorem retained_ledger (hd : d.Uses K V) (g : Guest σ) (key value : VoidPtr) (h : Role → VoidPtr → Nat) :
    Ledger K V g h (d.retainValue (d.retainKey g key).2 value).2
      (h + one .value (d.retainValue (d.retainKey g key).2 value).1 + one .key (d.retainKey g key).1) := by
  rw [add_right_comm, retainKey, retainValue, hd.key, hd.value]
  exact (Ledger.retainWith .key g key h).trans (.retainWith .value _ value _)

theorem sound_of_append (d₁ : CFDictionaryHostObject σ) (key : VoidPtr) (hash : Nat) (pair : VoidPtr × VoidPtr) (hd : d'.Uses K V)
    (hmap : d'.superclass.map = d₁.superclass.map.insert hash (d₁.superclass.map.bucket hash ++ [pair]))
    (hcn : d'.superclass.count = (d₁.pairs.length + 1) % 2 ^ 32)
    (htbl : ∀ H, Consistent K H → (Inv H d₁.superclass.map ∧ ∀ e ∈ d₁.pairs, e.1 ≠ 0) ∧
      hash = H.hash key ∧ (pair.1 ≠ 0 ∧ H.same key pair.1 = true) ∧ Lacks H d₁.pairs key) :
    d'.Sound K V ∧ held d'.pairs = held d₁.pairs + one .value pair.2 + one .key pair.1 := by
  have hp : d'.pairs.Perm (pair :: d₁.pairs) := by
    rw [pairs, hmap]
    exact pairs_append_perm _ _ _
  refine ⟨⟨hd, ?_, fun H hC => ?_⟩, (held_perm hp).trans (held_cons _ _)⟩
  · rw [hcn, hp.length_eq, length_cons]
  · obtain ⟨⟨hinv, hne⟩, rfl, ⟨hpai, hsm⟩, hlk⟩ := htbl H hC
    have hbck : Lacks H (d₁.superclass.map.bucket (H.hash key)) key := fun e he =>
      hlk e ((pairs_perm _ _).mem_iff.mpr (mem_append_left _ he))
    refine ⟨hmap ▸ (hinv.append hC.lawful hsm hbck pair.2).2, fun e he => ?_⟩
    rcases mem_cons.mp (hp.mem_iff.mp he) with rfl | he
    · exact hpai
    · exact hne e he

theorem Removal.count_eq (hd : d.superclass.count = d.pairs.length % 2 ^ 32)
    (hr : Removal K V { d with superclass := ⟨d.superclass.map, increment d.superclass.count⟩ } g key d' g') :
    d'.superclass.count = (d'.pairs.length + 1) % 2 ^ 32 := by
  rcases hr.pairs with rfl | ⟨pair, hp, hcn⟩
  · change increment d.superclass.count = (d.pairs.length + 1) % 2 ^ 32
    rw [hd, increment]
    omega
  · have hlen : d.pairs.length = d'.pairs.length + 1 := hp.length_eq
    change d'.superclass.count = decrement (increment d.superclass.count) at hcn
    rw [hcn, hd, increment, decrement, hlen]
    omega

/-- The new pair is put at the end of the list of its hash, after an equal key has been removed from it. -/
theorem insert_spec (hd : d.Sound K V) (g : Guest σ) (hkey : key ≠ 0) (value : VoidPtr) : ∃ d' g',
    d.insert g key value = .ok (d', g') ∧ d'.Sound K V ∧ Ledger K V g (held d.pairs) g' (held d'.pairs) := by
  have hldg := fun h => (hash_ledger hd.uses g key h).trans (retained_ledger hd.uses (d.hash g key).2 key value h)
  have hhh : ∀ H, Consistent K H → (d.hash g key).1 = H.hash key := fun H hC => hash_eq hd.uses hC g key
  have hsto := fun H (hC : Consistent K H) => retainKey_spec hd.uses hC (d.hash g key).2 hkey
  unfold insert
  dsimp only
  generalize d.retainKey (d.hash g key).2 key = owned at hsto hldg ⊢
  generalize d.retainValue owned.2 value = stored at hldg ⊢
  generalize (d.hash g key).1 = hash at hhh ⊢
  cases hlp : d.superclass.map.lookup hash with
  | none =>
    have hbck : d.superclass.map.bucket hash = [] := by rw [bucket, hlp, getD_none]
    refine ⟨_, _, rfl, (sound_of_append d key hash (owned.1, stored.1) ?_ ?_ ?_ fun H hC => ?_).imp_right fun hhl => ?_⟩
    · exact ⟨hd.uses.key, hd.uses.value⟩
    · rw [hbck, nil_append]
    · change increment d.superclass.count = _
      rw [hd.count, increment]
      omega
    · obtain ⟨hinv, hne⟩ := hd.table H hC
      refine ⟨⟨hinv, hne⟩, hhh H hC, hsto H hC, hinv.lacks hC.lawful ?_⟩
      rw [← hhh H hC, hbck]
      exact lacks_nil
    · rw [hhl]
      exact hldg _
  | some collisions =>
    have huss : Uses K V { d with superclass := ⟨d.superclass.map, increment d.superclass.count⟩ } :=
      ⟨hd.uses.key, hd.uses.value⟩
    have hr := remove_spec huss stored.2 owned.1
    generalize (remove _ stored.2 owned.1).2 = r at hr ⊢
    obtain ⟨d₁, g₁⟩ := r
    have hso : d.superclass.map.lookup hash ≠ none := by
      rw [hlp]
      rintro ⟨⟩
    obtain ⟨collisions₁, hlp₁⟩ := ne_none_iff_exists'.mp (hr.lookup hash hso)
    have hbck : d₁.superclass.map.bucket hash = collisions₁ := by rw [bucket, hlp₁, getD_some]
    rw [hlp₁]
    refine ⟨_, _, rfl, (sound_of_append d₁ key hash (owned.1, stored.1) ?_ ?_ ?_ fun H hC => ?_).imp_right fun hhl => ?_⟩
    · exact ⟨hr.uses.key, hr.uses.value⟩
    · rw [hbck]
    · exact hr.count_eq hd.count
    · obtain ⟨hinv, hne⟩ := hd.table H hC
      obtain ⟨htoo, hinv₁⟩ := hr.took H hC hinv
      have hsm := hC.lawful.symm _ _ (hsto H hC).2
      refine ⟨⟨hinv₁, fun e he => ?_⟩, hhh H hC, hsto H hC, (htoo.lacks hC.lawful hinv.distinct).congr hC.lawful hsm⟩
      rcases hr.pairs with rfl | ⟨pair, hp, -⟩
      · exact hne e he
      · exact hne e (hp.mem_iff.mpr (mem_cons_of_mem _ he))
    · rw [hhl]
      exact (hldg _).trans ((hr.ledger.frame _).frame _)

end CFDictionaryHostObject
end TouchHLE.CoreFoundation
