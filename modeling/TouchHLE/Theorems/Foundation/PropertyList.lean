import TouchHLE.Spec.PropertyList

/-! Property lists there and back. `serialize_plist` reads back what `deserialize_plist` has made, up to the order of the
    keys of dictionaries, but it has no case for the number that is made of an integer beyond `i64`. -/

namespace TouchHLE.Foundation.PropertyList
open Lib Value List

variable {entries out : List (Text × Value)}

section
variable {α β : Type} {R : α → β → Prop} {l : List α} {l' : List β}

theorem exists_forall₂ {l} (h : ∀ b ∈ l, ∃ a, R a b) : ∃ l', List.Forall₂ R l' l := by
  induction l with
  | nil => exact ⟨[], .nil⟩
  | cons b l ih =>
    obtain ⟨a, ha⟩ := h b mem_cons_self
    obtain ⟨l', hl'⟩ := ih fun b hb => h b (mem_cons_of_mem _ hb)
    exact ⟨a :: l', .cons ha hl'⟩

theorem exists_right (h : List.Forall₂ R l l') {a : α} (ha : a ∈ l) : ∃ b ∈ l', R a b := by
  induction h with
  | nil => exact absurd ha not_mem_nil
  | cons hr _ ih =>
    rcases mem_cons.mp ha with rfl | ha
    · exact ⟨_, mem_cons_self, hr⟩
    · obtain ⟨b, hb, hr⟩ := ih ha
      exact ⟨b, mem_cons_of_mem _ hb, hr⟩

theorem exists_left (h : List.Forall₂ R l l') {b : β} (hb : b ∈ l') : ∃ a ∈ l, R a b := exists_right h.flip hb

end

def SameEntry (e o : Text × Value) : Prop := e.1 = o.1 ∧ Equal e.2 o.2

theorem lookup_of_mem {l : List (Text × Value)} (hnd : (l.map (·.1)).Nodup) {o} (ho : o ∈ l) :
    l.lookup o.1 = some o.2 := by
  induction l with
  | nil => exact absurd ho not_mem_nil
  | cons a l ih =>
    obtain ⟨key, v⟩ := a
    obtain ⟨hnot, hnd'⟩ := nodup_cons.mp hnd
    rcases mem_cons.mp ho with rfl | ho
    · exact lookup_cons_self
    · have hne : (o.1 == key) = false := beq_eq_false_iff_ne.mpr fun heq => hnot (mem_map.mpr ⟨o, ho, heq⟩)
      rw [lookup_cons, hne]
      exact ih hnd' ho

theorem keys_of_same (h : List.Forall₂ SameEntry entries out) : out.map (·.1) = entries.map (·.1) := by
  induction h with
  | nil => rfl
  | cons he _ ih => rw [map_cons, map_cons, ih, he.1]

theorem equal_of_perm {entries'} (hpr : entries'.Perm entries)
    (hnd : (entries.map (·.1)).Nodup) (h : List.Forall₂ SameEntry entries' out) :
    Equal (.dictionary entries) (.dictionary out) := by
  have hnd' : (out.map (·.1)).Nodup := by
    rw [keys_of_same h]
    exact ((hpr.map _).nodup_iff).mpr hnd
  have hfn : ∀ e ∈ entries, ∃ w, out.lookup e.1 = some w ∧ Equal e.2 w := by
    intro e he
    obtain ⟨o, ho, hkey, hel⟩ := exists_right h (hpr.mem_iff.mpr he)
    exact ⟨o.2, hkey ▸ lookup_of_mem hnd' ho, hel⟩
  refine .dictionary (hpr.length_eq.symm.trans h.length_eq) (fun e he => ?_) fun e he w hw => ?_
  · obtain ⟨w, hw, -⟩ := hfn e he
    rw [hw]
    rfl
  · obtain ⟨w', hw', hel⟩ := hfn e he
    rw [hw] at hw'
    cases hw'
    exact hel

theorem insertEntry_new {key} (h : key ∉ entries.map (·.1)) (v : Value) :
    insertEntry entries key v = entries ++ [(key, v)] := by
  have hno : entries.lookup key = none := by
    refine lookup_eq_none_iff.mpr fun e he => ?_
    exact bne_iff_ne.mpr fun heq => h (mem_map.mpr ⟨e, he, heq.symm⟩)
  rw [insertEntry, hno]
  rfl

section
variable {host : Host} {mutOptions : MutabilityOptions}
variable {v : Value} {items : List Value} {array : List Object} {entries : List (Text × Value)}
variable {pairs : List (Object × Object)}

/-- A value is deserialized if its data fit; what is made of it is serialized if its integers are signed, and then it is an
    equal value. -/
structure Trip (host : Host) (mutOptions : MutabilityOptions) (v : Value) : Prop where
  fits : (∃ o, deserializePlist host mutOptions v = .ok o) ↔ v.Everywhere DataFits
  back : ∀ o w, deserializePlist host mutOptions v = .ok o → serializePlist host o = .ok w →
    v.Everywhere IsSigned ∧ Equal v w
  returns : ∀ o, deserializePlist host mutOptions v = .ok o → v.Everywhere IsSigned → ∃ w, serializePlist host o = .ok w

theorem eq_of_le_two {n : Nat} (h : n ≤ 2) : n = 0 ∨ n = 1 ∨ n = 2 := by omega

theorem exists_isa (h : mutOptions ≤ NSPropertyListMutableContainersAndLeaves) :
    (∃ isa, containerIsa mutOptions = .ok isa ∧ isa ≠ .foreign) ∧ ∃ isa, leafIsa mutOptions = .ok isa ∧ isa ≠ .foreign := by
  rcases eq_of_le_two h with rfl | rfl | rfl
  · exact ⟨⟨_, rfl, by decide⟩, _, rfl, by decide⟩
  · exact ⟨⟨_, rfl, by decide⟩, _, rfl, by decide⟩
  · exact ⟨⟨_, rfl, by decide⟩, _, rfl, by decide⟩

theorem trip_leaf {o} (ho : deserializePlist host mutOptions v = .ok o)
    (hbc : serializePlist host o = .ok v) (hel : Equal v v) (hft : v.Everywhere DataFits)
    (hsg : v.Everywhere IsSigned) : Trip host mutOptions v where
  fits := iff_of_true ⟨o, ho⟩ hft
  back := fun o' w ho' hw => by
    rw [ho] at ho'
    cases ho'
    rw [hbc] at hw
    cases hw
    exact ⟨hsg, hel⟩
  returns := fun o' ho' _ => by
    rw [ho] at ho'
    cases ho'
    exact ⟨v, hbc⟩

theorem everywhere_leaf {P} (hns : v.nodes = [v]) : v.Everywhere P ↔ P v := by
  rw [Everywhere, hns, forall_mem_singleton]

theorem trip_data (hos : mutOptions ≤ NSPropertyListMutableContainersAndLeaves) (bytes : List UInt8) :
    Trip host mutOptions (.data bytes) := by
  obtain ⟨isa, hisa, -⟩ := (exists_isa hos).2
  by_cases hlt : bytes.length < 2 ^ 32
  · have ho : deserializePlist host mutOptions (.data bytes) = .ok (.data isa bytes) := by
      rw [deserializePlist, deserializeData, if_pos hlt, hisa]
      rfl
    exact trip_leaf ho rfl (.data bytes) ((everywhere_leaf rfl).mpr hlt) ((everywhere_leaf rfl).mpr trivial)
  · have ho : deserializePlist host mutOptions (.data bytes) = .error .tryFromInt := by
      rw [deserializePlist, deserializeData, if_neg hlt]
    refine ⟨iff_of_false ?_ fun h => hlt ((everywhere_leaf rfl).mp h), fun o w h => ?_, fun o h => ?_⟩
    · rintro ⟨o, h⟩
      rw [ho] at h
      cases h
    · rw [ho] at h
      cases h
    · rw [ho] at h
      cases h

theorem trip_integer (n : Integer) : Trip host mutOptions (.integer n) := by
  by_cases hsg : n.value < 2 ^ 63
  · have ho : deserializePlist host mutOptions (.integer n) = .ok (.number .immutable (.longLong (.ofInt n.value))) := by
      rw [deserializePlist, deserializeInteger, Integer.asSigned, if_pos hsg]
    have hbc : .ofInt64 (.ofInt n.value) = n := by
      have hvl : (Int64.ofInt n.value).toInt = n.value := Int64.toInt_ofInt_of_le n.lower hsg
      cases n
      simp only [Integer.ofInt64, Integer.mk.injEq]
      exact hvl
    refine trip_leaf ho ?_ (.integer n) ((everywhere_leaf rfl).mpr trivial) ((everywhere_leaf rfl).mpr hsg)
    exact congrArg (fun n => Except.ok (Value.integer n)) hbc
  · have hnn : 0 ≤ n.value := le_trans (by decide) (Int.not_lt.mp hsg)
    have ho : deserializePlist host mutOptions (.integer n) =
        .ok (.number .immutable (.unsignedLongLong (.ofNat n.value.toNat))) := by
      rw [deserializePlist, deserializeInteger, Integer.asSigned, Integer.asUnsigned, if_neg hsg, if_pos hnn]
    refine ⟨iff_of_true ⟨_, ho⟩ ((everywhere_leaf rfl).mpr trivial), fun o w h hw => ?_, fun o h hsg' => ?_⟩
    · rw [ho] at h
      cases h
      cases hw
    · exact absurd ((everywhere_leaf rfl).mp hsg') hsg

theorem deserializeItems_iff : ∀ {array : List Object}, deserializeItems host mutOptions items = .ok array ↔
      List.Forall₂ (fun o v => deserializePlist host mutOptions v = .ok o) array items := by
  induction items with
  | nil =>
    intro array
    rw [deserializeItems, List.forall₂_nil_right_iff, Except.ok.injEq, eq_comm]
  | cons v items ih =>
    intro array
    rw [deserializeItems, bind_eq_ok, List.forall₂_cons_right_iff]
    constructor
    · rintro ⟨o, ho, h⟩
      obtain ⟨array', hay, h⟩ := bind_eq_ok.mp h
      cases h
      exact ⟨o, array', ho, ih.mp hay, rfl⟩
    · rintro ⟨o, array', ho, hay, rfl⟩
      exact ⟨o, ho, bind_eq_ok.mpr ⟨array', ih.mpr hay, rfl⟩⟩

theorem serializeItems_iff : ∀ {items : List Value},
    serializeItems host array = .ok items ↔ List.Forall₂ (fun v o => serializePlist host o = .ok v) items array := by
  induction array with
  | nil =>
    intro items
    rw [serializeItems, List.forall₂_nil_right_iff, Except.ok.injEq, eq_comm]
  | cons o array ih =>
    intro items
    rw [serializeItems, bind_eq_ok, List.forall₂_cons_right_iff]
    constructor
    · rintro ⟨v, hv, h⟩
      obtain ⟨items', hitm, h⟩ := bind_eq_ok.mp h
      cases h
      exact ⟨v, items', hv, ih.mp hitm, rfl⟩
    · rintro ⟨v, items', hv, hitm, rfl⟩
      exact ⟨v, hv, bind_eq_ok.mpr ⟨items', ih.mpr hitm, rfl⟩⟩

theorem serializeItems_back (ih : ∀ v ∈ items, Trip host mutOptions v)
    (hay : List.Forall₂ (fun o v => deserializePlist host mutOptions v = .ok o) array items) :
    ∀ {out : List Value}, List.Forall₂ (fun v o => serializePlist host o = .ok v) out array →
      (∀ v ∈ items, v.Everywhere IsSigned) ∧ List.Forall₂ Equal items out := by
  induction hay with
  | nil =>
    intro out hout
    cases hout
    exact ⟨fun _ hv => absurd hv not_mem_nil, .nil⟩
  | cons ho _ ihrest =>
    intro out hout
    cases hout with
    | cons hw hout =>
      obtain ⟨hsg, hel⟩ := (ih _ mem_cons_self).back _ _ ho hw
      obtain ⟨hsg', hel'⟩ := ihrest (fun v hv => ih v (mem_cons_of_mem _ hv)) hout
      exact ⟨forall_mem_cons.mpr ⟨hsg, hsg'⟩, .cons hel hel'⟩

theorem trip_array (hos : mutOptions ≤ NSPropertyListMutableContainersAndLeaves)
    (ih : ∀ v ∈ items, Trip host mutOptions v) : Trip host mutOptions (.array items) := by
  obtain ⟨isa, hisa, hine⟩ := (exists_isa hos).1
  have hok : ∀ o, deserializePlist host mutOptions (.array items) = .ok o ↔
      ∃ array, deserializeItems host mutOptions items = .ok array ∧ .array isa array = o := by
    intro o
    rw [deserializePlist, bind_eq_ok]
    simp [hisa]
  refine ⟨?_, fun o w ho hw => ?_, fun o ho hsg => ?_⟩
  · rw [everywhere_array]
    constructor
    · rintro ⟨o, ho⟩
      obtain ⟨array, hay, -⟩ := (hok o).mp ho
      refine ⟨trivial, fun v hv => ?_⟩
      obtain ⟨o', -, ho'⟩ := exists_left (deserializeItems_iff.mp hay) hv
      exact (ih v hv).fits.mp ⟨o', ho'⟩
    · rintro ⟨-, hft⟩
      obtain ⟨array, hay⟩ := exists_forall₂ fun v hv => (ih v hv).fits.mpr (hft v hv)
      exact ⟨_, (hok _).mpr ⟨array, deserializeItems_iff.mpr hay, rfl⟩⟩
  · obtain ⟨array, hay, rfl⟩ := (hok o).mp ho
    rw [serializePlist, assertInternal, if_neg hine, ok_bind] at hw
    obtain ⟨out, hout, hw⟩ := bind_eq_ok.mp hw
    cases hw
    obtain ⟨hsg, hel⟩ := serializeItems_back ih (deserializeItems_iff.mp hay) (serializeItems_iff.mp hout)
    exact ⟨everywhere_array.mpr ⟨trivial, hsg⟩, .array hel⟩
  · obtain ⟨array, hay, rfl⟩ := (hok o).mp ho
    obtain ⟨-, hsg⟩ := everywhere_array.mp hsg
    obtain ⟨out, hout⟩ : ∃ out, List.Forall₂ (fun v o => serializePlist host o = .ok v) out array := by
      refine exists_forall₂ fun o ho => ?_
      obtain ⟨v, hv, ho⟩ := exists_right (deserializeItems_iff.mp hay) ho
      exact (ih v hv).returns o ho (hsg v hv)
    refine ⟨.array out, ?_⟩
    rw [serializePlist, assertInternal, if_neg hine, ok_bind, serializeItems_iff.mpr hout]
    rfl

def MadeEntry (host : Host) (mutOptions : MutabilityOptions) (p : Object × Object) (e : Text × Value) : Prop :=
  p.1 = .string .immutable (.utf8 e.1) ∧ deserializePlist host mutOptions e.2 = .ok p.2

theorem deserializeEntries_iff : ∀ {pairs : List (Object × Object)},
    deserializeEntries host mutOptions entries = .ok pairs ↔ List.Forall₂ (MadeEntry host mutOptions) pairs entries := by
  induction entries with
  | nil =>
    intro pairs
    rw [deserializeEntries, List.forall₂_nil_right_iff, Except.ok.injEq, eq_comm]
  | cons e entries ih =>
    intro pairs
    rw [deserializeEntries, bind_eq_ok, List.forall₂_cons_right_iff]
    constructor
    · rintro ⟨o, ho, h⟩
      obtain ⟨pairs', hpi, h⟩ := bind_eq_ok.mp h
      cases h
      exact ⟨_, pairs', ⟨rfl, ho⟩, ih.mp hpi, rfl⟩
    · rintro ⟨p, pairs', ⟨hkey, ho⟩, hpi, rfl⟩
      refine ⟨p.2, ho, bind_eq_ok.mpr ⟨pairs', ih.mpr hpi, ?_⟩⟩
      rw [← hkey]

theorem foldl_insertPair : ∀ {acc : List (Object × Object)},
    ((acc ++ pairs).map fun p => p.1.text).Nodup → pairs.foldl insertPair acc = acc ++ pairs := by
  induction pairs with
  | nil => exact fun _ => (append_nil _).symm
  | cons p pairs ih =>
    intro acc hnd
    have hnew : (acc.any fun q => q.1.text == p.1.text) = false := by
      rw [any_eq_false]
      intro q hq heq
      rw [map_append, map_cons] at hnd
      refine (disjoint_of_nodup_append hnd) (mem_map_of_mem hq) ?_
      exact (eq_of_beq heq) ▸ mem_cons_self
    rw [foldl_cons, insertPair, hnew, if_neg Bool.false_ne_true, ih]
    · rw [append_assoc, singleton_append]
    · rw [append_assoc, singleton_append]
      exact hnd

theorem texts_of_made (h : List.Forall₂ (MadeEntry host mutOptions) pairs entries) :
    (pairs.map fun p => p.1.text) = (entries.map (·.1)).map some := by
  induction h with
  | nil => rfl
  | cons hp _ ih =>
    rw [map_cons, map_cons, map_cons, ih, hp.1]
    rfl

section
variable (ih : ∀ e ∈ entries, Trip host mutOptions e.2) (h : List.Forall₂ (MadeEntry host mutOptions) pairs entries)
include ih h

theorem serializePairs_back :
    ∀ {acc r : List (Text × Value)}, ((acc ++ entries).map (·.1)).Nodup → serializePairs host acc pairs = .ok r →
      (∀ e ∈ entries, e.2.Everywhere IsSigned) ∧ ∃ out, r = acc ++ out ∧ List.Forall₂ SameEntry entries out := by
  induction h with
  | nil =>
    intro acc r _ hr
    cases hr
    exact ⟨fun _ he => absurd he not_mem_nil, [], (append_nil acc).symm, .nil⟩
  | @cons p e pairs entries hp _ ihrest =>
    intro acc r hnd hr
    obtain ⟨key, o⟩ := p
    obtain rfl : key = .string .immutable (.utf8 e.1) := hp.1
    obtain ⟨w, hw, hr⟩ := bind_eq_ok.mp (show (serializePlist host o >>= _) = .ok r from hr)
    obtain ⟨hsg, hel⟩ := (ih e mem_cons_self).back o w hp.2 hw
    have hnew : e.1 ∉ acc.map (·.1) := by
      rw [map_append, map_cons] at hnd
      exact fun hmem => (disjoint_of_nodup_append hnd) hmem mem_cons_self
    rw [insertEntry_new hnew] at hr
    have hnd' : (((acc ++ [(e.1, w)]) ++ entries).map (·.1)).Nodup := by
      simpa using hnd
    obtain ⟨hsg', out, rfl, hsm⟩ := ihrest (fun e he => ih e (mem_cons_of_mem _ he)) hnd' hr
    refine ⟨forall_mem_cons.mpr ⟨hsg, hsg'⟩, (e.1, w) :: out, ?_, .cons ⟨rfl, hel⟩ hsm⟩
    rw [append_assoc, singleton_append]

theorem exists_serializePairs

    (hsg : ∀ e ∈ entries, e.2.Everywhere IsSigned) :
    ∀ acc, ∃ r, serializePairs host acc pairs = .ok r := by
  induction h with
  | nil => exact fun acc => ⟨acc, rfl⟩
  | @cons p e pairs entries hp _ ihrest =>
    intro acc
    obtain ⟨key, o⟩ := p
    obtain rfl : key = .string .immutable (.utf8 e.1) := hp.1
    obtain ⟨w, hw⟩ := (ih e mem_cons_self).returns o hp.2 (hsg e mem_cons_self)
    obtain ⟨r, hr⟩ := ihrest (fun e he => ih e (mem_cons_of_mem _ he))
      (fun e he => hsg e (mem_cons_of_mem _ he)) (insertEntry acc e.1 w)
    refine ⟨r, ?_⟩
    rw [serializePairs, serializeKey, hw]
    exact hr

end

theorem trip_dictionary (hos : mutOptions ≤ NSPropertyListMutableContainersAndLeaves)
    (hkys : (entries.map (·.1)).Nodup) (ih : ∀ e ∈ entries, Trip host mutOptions e.2) :
    Trip host mutOptions (.dictionary entries) := by
  obtain ⟨isa, hisa, hine⟩ := (exists_isa hos).1
  -- The pairs are made in the order of the entries and read back in the order of the hash map.
  have hok : ∀ o, deserializePlist host mutOptions (.dictionary entries) = .ok o →
      ∃ pairs entries', .dictionary isa pairs = o ∧ entries'.Perm entries ∧
        List.Forall₂ (MadeEntry host mutOptions) pairs entries' := by
    intro o ho
    obtain ⟨pairs, hpi, ho⟩ := bind_eq_ok.mp ho
    rw [hisa, ok_bind] at ho
    have hma := deserializeEntries_iff.mp hpi
    have hise : pairs.foldl insertPair [] = pairs := by
      refine foldl_insertPair ?_
      rw [nil_append, texts_of_made hma]
      exact hkys.map (Option.some_injective _)
    rw [hise] at ho
    obtain ⟨entries', hma', hpr⟩ := perm_comp_forall₂ (host.order_perm pairs) hma
    exact ⟨_, entries', Except.ok.inj ho, hpr, hma'⟩
  refine ⟨?_, fun o w ho hw => ?_, fun o ho hsg => ?_⟩
  · rw [everywhere_dictionary]
    constructor
    · rintro ⟨o, ho⟩
      obtain ⟨pairs, entries', -, hpr, hma⟩ := hok o ho
      refine ⟨trivial, fun e he => ?_⟩
      obtain ⟨p, -, hp⟩ := exists_left hma (hpr.mem_iff.mpr he)
      exact (ih e he).fits.mp ⟨p.2, hp.2⟩
    · rintro ⟨-, hft⟩
      obtain ⟨pairs, hpi⟩ : ∃ pairs, List.Forall₂ (MadeEntry host mutOptions) pairs entries := by
        refine exists_forall₂ fun e he => ?_
        obtain ⟨o, ho⟩ := (ih e he).fits.mpr (hft e he)
        exact ⟨(_, o), rfl, ho⟩
      rw [deserializePlist, deserializeEntries_iff.mpr hpi, ok_bind, hisa]
      exact ⟨_, rfl⟩
  · obtain ⟨pairs, entries', rfl, hpr, hma⟩ := hok o ho
    rw [serializePlist, assertInternal, if_neg hine, ok_bind] at hw
    obtain ⟨dict, hdct, hw⟩ := bind_eq_ok.mp hw
    cases hw
    have hnd : ((([] : List (Text × Value)) ++ entries').map (·.1)).Nodup :=
      ((hpr.map (Prod.fst : Text × Value → Text)).nodup_iff).mpr hkys
    obtain ⟨hsg, out, rfl, hsm⟩ := serializePairs_back (fun e he => ih e (hpr.mem_iff.mp he)) hma hnd hdct
    refine ⟨everywhere_dictionary.mpr ⟨trivial, fun e he => hsg e (hpr.mem_iff.mpr he)⟩, ?_⟩
    exact equal_of_perm hpr hkys hsm
  · obtain ⟨pairs, entries', rfl, hpr, hma⟩ := hok o ho
    obtain ⟨-, hsg⟩ := everywhere_dictionary.mp hsg
    obtain ⟨dict, hdct⟩ := exists_serializePairs (fun e he => ih e (hpr.mem_iff.mp he)) hma
      (fun e he => hsg e (hpr.mem_iff.mp he)) []
    refine ⟨.dictionary dict, ?_⟩
    rw [serializePlist, assertInternal, if_neg hine, ok_bind, hdct]
    rfl

theorem trip (hos : mutOptions ≤ NSPropertyListMutableContainersAndLeaves) :
    v.Everywhere IsPlain → Trip host mutOptions v := by
  obtain ⟨isa, hisa, hine⟩ := (exists_isa hos).2
  induction v using Value.containment with
  | array items ih => exact fun hpa => trip_array hos fun v hv => ih v hv ((everywhere_array.mp hpa).2 v hv)
  | dictionary entries ih =>
    intro hpa
    obtain ⟨hkys, hpa⟩ := everywhere_dictionary.mp hpa
    exact trip_dictionary hos hkys fun e he => ih e he (hpa e he)
  | boolean b =>
    exact fun _ => trip_leaf rfl rfl (.boolean b) ((everywhere_leaf rfl).mpr trivial) ((everywhere_leaf rfl).mpr trivial)
  | data bytes => exact fun _ => trip_data hos bytes
  | integer n => exact fun _ => trip_integer n
  | string text =>
    intro _
    refine trip_leaf (o := .string isa (.utf8 text)) ?_ ?_ (.string text) ((everywhere_leaf rfl).mpr trivial)
      ((everywhere_leaf rfl).mpr trivial)
    · rw [deserializePlist, hisa]
      rfl
    · rw [serializePlist, assertInternal, if_neg hine]
      rfl
  | date time | real bits | uid n => exact fun hpa => (hpa _ mem_cons_self).elim

end

/-- A value is turned into objects and these into a value again, without a panic, and the two values are equal. -/
def RoundTrips (host : Host) (mutOptions : MutabilityOptions) (v : Value) : Prop :=
  ∃ object w, deserializePlist host mutOptions v = .ok object ∧ serializePlist host object = .ok w ∧ Equal v w

/-- A property list comes back exactly when all its integers are signed and its data have lengths of type `NSUInteger`. -/
theorem roundTrips_iff (host : Host) {mutOptions : MutabilityOptions}
    (hoptions : mutOptions ≤ NSPropertyListMutableContainersAndLeaves) (v : PropertyList) :
    RoundTrips host mutOptions v.value ↔ v.value.Everywhere IsSigned ∧ v.value.Everywhere DataFits := by
  have htrip : Trip host mutOptions v.value := trip hoptions v.plain
  constructor
  · rintro ⟨object, w, hobject, hback, -⟩
    exact ⟨(htrip.back object w hobject hback).1, htrip.fits.mp ⟨object, hobject⟩⟩
  · rintro ⟨hsigned, hfits⟩
    obtain ⟨object, hobject⟩ := htrip.fits.mpr hfits
    obtain ⟨w, hback⟩ := htrip.returns object hobject hsigned
    exact ⟨object, w, hobject, hback, (htrip.back object w hobject hback).2⟩

def plainHost : Host := ⟨fun _ => 0, fun _ => 0, fun _ => none, id, fun _ => .refl _⟩

def signedList : PropertyList :=
  ⟨.dictionary [(['a'], .array [.integer ⟨-1, by decide, by decide⟩, .data [1, 2]]), (['b'], .boolean true)],
    by simp [Everywhere, nodes, nodesOfEntries, nodesOfItems, IsPlain]⟩

theorem roundTrips_signedList : RoundTrips plainHost NSPropertyListMutableContainersAndLeaves signedList.value :=
  (roundTrips_iff plainHost (Nat.le_refl _) signedList).mpr
    ⟨by simp [signedList, Everywhere, nodes, nodesOfEntries, nodesOfItems, IsSigned],
     by simp [signedList, Everywhere, nodes, nodesOfEntries, nodesOfItems, DataFits]⟩

def unsignedList : PropertyList :=
  ⟨.array [.integer ⟨2 ^ 63, by decide, by decide⟩], by simp [Everywhere, nodes, nodesOfItems, IsPlain]⟩

/-- The number that `deserialize_plist` makes of it has no case in `serialize_plist`. -/
theorem not_roundTrips_unsignedList : ¬RoundTrips plainHost NSPropertyListImmutable unsignedList.value := by
  rintro ⟨object, w, hobject, hback, -⟩
  cases hobject
  cases hback

end TouchHLE.Foundation.PropertyList
