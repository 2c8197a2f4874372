import TouchHLE.Foundation.NSArray
import TouchHLE.Lib.Vec

/-! Mutable arrays against lists: what each method does to the contents and to the references, and that `removeObject:`
    is the only one that can go wrong. -/

namespace TouchHLE.Foundation.Arrays
open Lib List Option Function

variable {ι α : Type} {s t u : Arrays ι α} {this : ι} {object : α} {l l' : List α}
variable {index : Nat} {isEqual : α → α → Bool} {c : Call ι α}

theorem borrow_eq (h : s.hostObject this = some l) : s.borrow this = .ok l := by
  simp [borrow, h]

theorem objectAtIndex_eq (h : s.hostObject this = some l) {i : Nat} (hi : i < l.length) :
    s.objectAtIndex this i = .ok l[i] := by
  simp [objectAtIndex, borrow_eq h, getElem?_eq_getElem hi]

theorem toRemove_eq (isEqual : α → α → Bool) (h : s.hostObject this = some l) (is acc : List Nat)
    (his : ∀ i ∈ is, i < l.length) :
    is.foldlM (fun toRemove i => do
      let currObject ← s.objectAtIndex this i
      .ok (if isEqual object currObject then toRemove ++ [i] else toRemove)) acc =
      (.ok (acc ++ is.filter fun i => l[i]?.any (isEqual object)) : Except ArrayPanic (List Nat)) := by
  induction is generalizing acc with
  | nil => simp
  | cons i is ih =>
    have hi := his i mem_cons_self
    rw [foldlM_cons, objectAtIndex_eq h hi, ok_bind, ok_bind, ih _ fun j hj => his j (mem_cons_of_mem i hj),
      filter_cons, getElem?_eq_getElem hi, any_some]
    cases isEqual object l[i] with
    | false | true => simp

variable [DecidableEq ι] [DecidableEq α]

/-! ### What a method changes -/

structure Changes (s t : Arrays ι α) (this : ι) (l l' : List α) : Prop where
  before : s.hostObject this = some l
  after : t.hostObject = update s.hostObject this (some l')
  refs : t.refs = update s.refs this fun o => s.refs this o + (l'.count o - l.count o)

theorem Changes.array (h : Changes s t this l l') : t.hostObject this = some l' := by
  rw [h.after, update_self]

theorem Changes.refl (h : s.hostObject this = some l) : Changes s s this l l := by
  refine ⟨h, (update_eq_self_iff.mpr h.symm).symm, ?_⟩
  simp

theorem Changes.trans {l₁} (h : Changes s t this l l₁) (h' : Changes t u this l₁ l') : Changes s u this l l' := by
  refine ⟨h.before, ?_, ?_⟩
  · rw [h'.after, h.after, update_idem]
  · rw [h'.refs, h.refs, update_idem, update_self]
    congr 1
    funext o
    omega

theorem Changes.of_addRef {n : Int} {s'} (h : s.hostObject this = some l)
    (hho : s'.hostObject = update s.hostObject this (some l')) (hrf : s'.refs = (s.addRef this object n).refs)
    (hcn : ∀ o, (l'.count o : Int) = l.count o + if o = object then n else 0) : Changes s s' this l l' := by
  refine ⟨h, hho, hrf.trans ?_⟩
  change update s.refs this _ = _
  congr 1
  funext o
  rw [hcn o]
  rcases eq_or_ne o object with rfl | hne
  · rw [update_self, if_pos rfl]
    omega
  · rw [update_of_ne hne, if_neg hne]
    omega

theorem count_of_perm_cons (h : l'.Perm (object :: l)) (o : α) : (l'.count o : Int) = l.count o + if o = object then 1 else 0 := by
  rw [h.count_eq, count_cons]
  rcases eq_or_ne o object with rfl | hne
  · simp
  · simp [hne, hne.symm]

theorem Changes.of_retain (h : s.hostObject this = some l) (hpr : l'.Perm (object :: l)) :
    Changes s ((s.retain this object).setArray this l') this l l' :=
  .of_addRef h rfl rfl (count_of_perm_cons hpr)

theorem insertObjectAtIndex_ok (h : s.hostObject this = some l) (object : α) (hi : index ≤ l.length) :
    ∃ t, s.insertObjectAtIndex this object index = .ok t ∧ Changes s t this l (l.insertIdx index object) := by
  have hbr : (s.retain this object).borrow this = .ok l := borrow_eq h
  exact ⟨(s.retain this object).setArray this (l.insertIdx index object),
    by simp [insertObjectAtIndex, hbr, if_pos hi], .of_retain h (perm_insertIdx object l hi)⟩

theorem addObject_ok (h : s.hostObject this = some l) (object : α) :
    ∃ t, s.addObject this object = .ok t ∧ Changes s t this l (l ++ [object]) := by
  have hbr : (s.retain this object).borrow this = .ok l := borrow_eq h
  exact ⟨(s.retain this object).setArray this (l ++ [object]), by simp [addObject, hbr],
    .of_retain h (perm_append_singleton object l)⟩

theorem count_of_cons_perm (h : (object :: l').Perm l) (o : α) :
    (l'.count o : Int) = l.count o + if o = object then -1 else 0 := by
  have hcn := count_of_perm_cons h.symm o
  split at hcn
  · rename_i heq
    rw [if_pos heq]
    omega
  · rename_i hne
    rw [if_neg hne]
    omega

section
variable (h : s.hostObject this = some l)
include h

theorem Changes.of_release (hpr : (object :: l').Perm l) : Changes s ((s.setArray this l').release this object) this l l' :=
  .of_addRef h rfl rfl (count_of_cons_perm hpr)

theorem removeObjectAtIndex_ok (hi : index < l.length) :
    ∃ t, s.removeObjectAtIndex this index = .ok t ∧ Changes s t this l (l.eraseIdx index) := by
  exact ⟨(s.setArray this (l.eraseIdx index)).release this l[index],
    by simp [removeObjectAtIndex, borrow_eq h, getElem?_eq_getElem hi],
    .of_release h (getElem_cons_eraseIdx_perm hi)⟩

theorem removeObjectAtIndex_error (hi : ¬index < l.length) : s.removeObjectAtIndex this index = .error .outOfBounds := by
  simp [removeObjectAtIndex, borrow_eq h, getElem?_eq_none (Nat.le_of_not_lt hi)]

theorem removeLastObject_ok (hne : l ≠ []) : ∃ t, s.removeLastObject this = .ok t ∧ Changes s t this l l.dropLast := by
  refine ⟨(s.setArray this l.dropLast).release this (l.getLast hne),
    by simp [removeLastObject, borrow_eq h, getLast?_eq_some_getLast hne], .of_release h ?_⟩
  have hls := perm_append_singleton (l.getLast hne) l.dropLast
  rw [dropLast_append_getLast hne] at hls
  exact hls.symm

theorem replaceObjectAtIndex_ok (object : α) (hi : index < l.length) :
    ∃ t, s.replaceObjectAtIndex this index object = .ok t ∧ Changes s t this l (l.set index object) := by
  have hbr : (s.retain this object).borrow this = .ok l := borrow_eq h
  refine ⟨((s.retain this object).setArray this (l.set index object)).release this l[index],
    by simp [replaceObjectAtIndex, hbr, getElem?_eq_getElem hi], ?_⟩
  -- As if the new object were appended, and then the old one taken out.
  have happ : Changes s ((s.retain this object).setArray this (object :: l)) this l (object :: l) := .of_retain h (.refl _)
  have hpr : (l[index] :: l.set index object).Perm (object :: l) := by
    refine ((set_perm_cons_eraseIdx hi object).cons _).trans ((List.Perm.swap _ _ _).trans ?_)
    exact (getElem_cons_eraseIdx_perm hi).cons _
  have hbt := happ.trans (.of_release happ.array hpr)
  simpa only [setArray, release, addRef, update_idem] using hbt

end

theorem releases_eq (l : List α) (s : Arrays ι α) :
    l.foldl (·.release this ·) s = { s with refs := update s.refs this fun o => s.refs this o - l.count o } := by
  induction l generalizing s with
  | nil => simp
  | cons a l ih =>
    rw [foldl_cons, ih]
    simp only [release, addRef, update_idem, update_self]
    congr 2
    funext o
    rcases eq_or_ne o a with rfl | hne
    · rw [update_self, count_cons_self]
      omega
    · rw [update_of_ne hne, count_cons_of_ne hne.symm]

theorem removeAllObjects_ok (h : s.hostObject this = some l) :
    ∃ t, s.removeAllObjects this = .ok t ∧ Changes s t this l [] := by
  refine ⟨(l.foldl (·.release this ·) (s.setArray this [])).setArray this [],
    by simp [removeAllObjects, borrow_eq h], h, ?_, ?_⟩
  · simp [releases_eq, setArray]
  · simp only [releases_eq, setArray, count_nil]
    congr 1
    funext o
    omega

theorem addObjects_ok (added : List α) (h : s.hostObject this = some l) :
    ∃ t, added.foldlM (·.addObject this ·) s = .ok t ∧ Changes s t this l (l ++ added) := by
  induction added generalizing s l with
  | nil => exact ⟨s, rfl, by simpa using .refl h⟩
  | cons a added ih =>
    obtain ⟨s₁, hadd, hs₁⟩ := addObject_ok h a
    obtain ⟨t, ht, hst⟩ := ih hs₁.array
    refine ⟨t, by rw [foldlM_cons, hadd, ok_bind, ht], ?_⟩
    simpa using hs₁.trans hst

theorem removeIndexes_spec (is : List Nat) (h : s.hostObject this = some l) :
    (∃ t l', is.foldlM (·.removeObjectAtIndex this ·) s = .ok t ∧ Vec.eraseAll l is = some l' ∧ Changes s t this l l') ∨
      is.foldlM (·.removeObjectAtIndex this ·) s = .error .outOfBounds ∧ Vec.eraseAll l is = none := by
  induction is generalizing s l with
  | nil => exact .inl ⟨s, l, rfl, rfl, .refl h⟩
  | cons i is ih =>
    rw [foldlM_cons, Vec.eraseAll]
    by_cases hi : i < l.length
    · obtain ⟨s₁, hrmv, hs₁⟩ := removeObjectAtIndex_ok h hi
      rw [hrmv, ok_bind, if_pos hi]
      rcases ih hs₁.array with ⟨t, l', ht, hl', hst⟩ | heo
      · exact .inl ⟨t, l', ht, hl', hs₁.trans hst⟩
      · exact .inr heo
    · rw [removeObjectAtIndex_error h hi, if_neg hi]
      exact .inr ⟨rfl, rfl⟩

theorem removeObject_eq (isEqual : α → α → Bool) (object : α) (h : s.hostObject this = some l) (hlen : l.length < 2 ^ 32) :
    s.removeObject isEqual this object = (Vec.positions (isEqual object) l).foldlM (·.removeObjectAtIndex this ·) s := by
  simp only [removeObject, count, borrow_eq h, ok_bind, if_pos hlen]
  rw [toRemove_eq isEqual h _ _ fun i hi => mem_range.mp hi]
  rfl

def listCall (isEqual : α → α → Bool) (A : ι → Option (List α)) : Call ι α → ι → Option (List α)
  | .new this => update A this (some [])
  | .dealloc this => update A this none
  | .insertObjectAtIndex this object index => update A this ((A this).map (·.insertIdx index object))
  | .addObject this object => update A this ((A this).map (· ++ [object]))
  | .removeObject this object => update A this ((A this).map (·.filter fun o => !isEqual object o))
  | .removeObjectAtIndex this index => update A this ((A this).map (·.eraseIdx index))
  | .replaceObjectAtIndex this index obj => update A this ((A this).map (·.set index obj))
  | .removeLastObject this => update A this ((A this).map (·.dropLast))
  | .removeAllObjects this => update A this (some [])
  | .addObjectsFromArray this other => update A this ((A this).map (· ++ (A other).getD []))

/-- Calls are to arrays that exist, with indexes in range. -/
def Valid (s : Arrays ι α) : Call ι α → Prop
  | .new this => s.hostObject this = none
  | .dealloc this | .addObject this _ | .removeObject this _ | .removeAllObjects this => s.hostObject this ≠ none
  | .insertObjectAtIndex this _ index => (s.hostObject this).any (index ≤ ·.length) = true
  | .removeObjectAtIndex this index | .replaceObjectAtIndex this index _ =>
    (s.hostObject this).any (index < ·.length) = true
  | .removeLastObject this => s.hostObject this ≠ none ∧ s.hostObject this ≠ some []
  | .addObjectsFromArray this other => s.hostObject this ≠ none ∧ s.hostObject other ≠ none

instance (s : Arrays ι α) (c : Call ι α) : Decidable (s.Valid c) := by
  apply Call.casesOn (motive := fun c => Decidable (s.Valid c)) c <;> intros <;> unfold Valid <;> infer_instance

def Balanced (s : Arrays ι α) : Prop := ∀ this o, s.refs this o = ((s.hostObject this).getD []).count o

/-- `removeObject:` is right when there is at most one equal object, in an array whose `count` is an `NSUInteger`. -/
def Fine (isEqual : α → α → Bool) (s : Arrays ι α) : Call ι α → Prop
  | .removeObject this object => ∀ l, s.hostObject this = some l → l.length < 2 ^ 32 ∧ l.countP (isEqual object) ≤ 1
  | _ => True

theorem Changes.balanced (h : Changes s t this l l') (hs : s.Balanced) : t.Balanced := by
  intro other o
  rw [h.refs, h.after]
  rcases eq_or_ne other this with rfl | hne
  · have hold := hs other o
    rw [h.before, getD_some] at hold
    rw [update_self, update_self, getD_some]
    omega
  · rw [update_of_ne hne, update_of_ne hne]
    exact hs other o

/-- The references stay balanced whatever a call does, and its effect on the contents is that on lists when it is fine. -/
def Answers (isEqual : α → α → Bool) (s : Arrays ι α) (c : Call ι α) : Prop :=
  (∃ t, s.call isEqual c = .ok ((), t) ∧ t.Balanced ∧ (t.hostObject = listCall isEqual s.hostObject c ↔ Fine isEqual s c)) ∨
    ∃ e, s.call isEqual c = .error e ∧ ¬Fine isEqual s c

theorem answers_of_changes {method} (hs : s.Balanced)
    (hcl : s.call isEqual c = method >>= fun t => .ok ((), t)) (hmth : ∃ t, method = .ok t ∧ Changes s t this l l')
    (hli : listCall isEqual s.hostObject c = update s.hostObject this (some l')) (hfin : Fine isEqual s c) :
    Answers isEqual s c := by
  obtain ⟨t, rfl, ht⟩ := hmth
  exact .inl ⟨t, hcl, ht.balanced hs, iff_of_true (ht.after.trans hli.symm) hfin⟩

theorem removeObject_answers (hs : s.Balanced) (h : s.hostObject this = some l) :
    Answers isEqual s (.removeObject this object) := by
  have hfin : Fine isEqual s (.removeObject this object) ↔ l.length < 2 ^ 32 ∧ l.countP (isEqual object) ≤ 1 := by
    simp [Fine, h]
  by_cases hlen : l.length < 2 ^ 32
  · have hli : listCall isEqual s.hostObject (.removeObject this object) =
        update s.hostObject this (some (l.filter fun o => !isEqual object o)) := by
      simp [listCall, h]
    have hcl := removeObject_eq isEqual object h hlen
    rcases removeIndexes_spec (Vec.positions (isEqual object) l) h with ⟨t, l', ht, hl', hst⟩ | ⟨heo, hno⟩
    · refine .inl ⟨t, by simp [call, hcl, ht], hst.balanced hs, ?_⟩
      rw [hli, hst.after, (update_injective _ _).eq_iff, some_inj, hfin, ← Vec.eraseAll_positions_iff, hl', some_inj]
      exact (and_iff_right hlen).symm
    · refine .inr ⟨.outOfBounds, by simp [call, hcl, heo], fun hf => ?_⟩
      rw [hfin, ← Vec.eraseAll_positions_iff, hno] at hf
      cases hf.2
  · refine .inr ⟨.count, ?_, fun hf => hlen (hfin.mp hf).1⟩
    simp only [call, removeObject, count, borrow_eq h, ok_bind, if_neg hlen, error_bind]

theorem dealloc_answers (hs : s.Balanced) (h : s.hostObject this = some l) : Answers isEqual s (.dealloc this) := by
  refine .inl ⟨_, by simp only [call, dealloc, borrow_eq h, ok_bind]; rfl, fun other o => ?_, iff_of_true ?_ trivial⟩
  · simp only [releases_eq, setArray]
    have hold := hs other o
    rcases eq_or_ne other this with rfl | hne
    · rw [h, getD_some] at hold
      simp [hold]
    · simpa [update_of_ne hne] using hold
  · simp [releases_eq, setArray, listCall]

theorem call_answers (isEqual : α → α → Bool) (hs : s.Balanced) (hvd : s.Valid c) : Answers isEqual s c := by
  cases c with
  | new this =>
    refine .inl ⟨s.new this, rfl, fun other o => ?_, iff_of_true rfl trivial⟩
    have hold := hs other o
    rcases eq_or_ne other this with rfl | hne
    · rw [hvd] at hold
      simpa [new, setArray] using hold
    · simpa [new, setArray, update_of_ne hne] using hold
  | dealloc this =>
    obtain ⟨l, h⟩ := ne_none_iff_exists'.mp hvd
    exact dealloc_answers hs h
  | insertObjectAtIndex this object index =>
    obtain ⟨l, h, hi⟩ := (any_eq_true _ _).mp hvd
    exact answers_of_changes hs rfl (insertObjectAtIndex_ok h object (of_decide_eq_true hi)) (by simp [listCall, h]) trivial
  | addObject this object =>
    obtain ⟨l, h⟩ := ne_none_iff_exists'.mp hvd
    exact answers_of_changes hs rfl (addObject_ok h object) (by simp [listCall, h]) trivial
  | removeObject this object =>
    obtain ⟨l, h⟩ := ne_none_iff_exists'.mp hvd
    exact removeObject_answers hs h
  | removeObjectAtIndex this index =>
    obtain ⟨l, h, hi⟩ := (any_eq_true _ _).mp hvd
    exact answers_of_changes hs rfl (removeObjectAtIndex_ok h (of_decide_eq_true hi)) (by simp [listCall, h]) trivial
  | replaceObjectAtIndex this index obj =>
    obtain ⟨l, h, hi⟩ := (any_eq_true _ _).mp hvd
    exact answers_of_changes hs rfl (replaceObjectAtIndex_ok h obj (of_decide_eq_true hi)) (by simp [listCall, h]) trivial
  | removeLastObject this =>
    obtain ⟨l, h⟩ := ne_none_iff_exists'.mp hvd.1
    exact answers_of_changes hs rfl (removeLastObject_ok h fun hnil => hvd.2 (hnil ▸ h)) (by simp [listCall, h]) trivial
  | removeAllObjects this =>
    obtain ⟨l, h⟩ := ne_none_iff_exists'.mp hvd
    exact answers_of_changes hs rfl (removeAllObjects_ok h) rfl trivial
  | addObjectsFromArray this other =>
    obtain ⟨l, h⟩ := ne_none_iff_exists'.mp hvd.1
    obtain ⟨added, hade⟩ := ne_none_iff_exists'.mp hvd.2
    refine answers_of_changes hs ?_ (addObjects_ok added h) ?_ trivial
    · simp [call, addObjectsFromArray, borrow_eq hade]
    · simp [listCall, h, hade]

theorem balanced_of_runs (hrun : Runs (call isEqual) Valid start s) : s.Balanced := by
  refine hrun.invariant (fun _ _ => rfl) fun s t c r hs hvd hcl => ?_
  rcases call_answers isEqual hs hvd with ⟨t', hcl', hba, -⟩ | ⟨e, heo, -⟩
  · rw [hcl] at hcl'
    cases hcl'
    exact hba
  · rw [hcl] at heo
    cases heo

/-- In every state that arrays reach, an array has one reference for each occurrence of an object, and a call does what
    it does to a list, without a panic, exactly when it does not remove several equal objects at once. -/
theorem lists_iff_of_runs (isEqual : α → α → Bool) (s : Arrays ι α) (hrun : Runs (call isEqual) Valid start s)
    (c : Call ι α) (hvalid : s.Valid c) :
    s.Balanced ∧ ((∃ t, s.call isEqual c = .ok ((), t) ∧ t.hostObject = listCall isEqual s.hostObject c ∧ t.Balanced) ↔
      Fine isEqual s c) := by
  have hs := balanced_of_runs hrun
  refine ⟨hs, ?_⟩
  rcases call_answers isEqual hs hvalid with ⟨t, hcall, hbalanced, hiff⟩ | ⟨e, herror, hnot⟩
  · rw [← hiff]
    refine ⟨?_, fun hlist => ⟨t, hcall, hlist, hbalanced⟩⟩
    rintro ⟨t', hcall', hlist, -⟩
    rw [hcall] at hcall'
    cases hcall'
    exact hlist
  · refine iff_of_false ?_ hnot
    rintro ⟨t, hcall, -⟩
    rw [herror] at hcall
    cases hcall

/-- One of two different objects is removed. -/
theorem lists_iff_of_runs_pair :
    ∃ s, exec (call (· == ·)) Valid start [.new 0, .addObject 0 5, .addObject 0 7] = some s ∧
      s.Balanced ∧ ((∃ t, s.call (· == ·) (.removeObject 0 5) = .ok ((), t) ∧
        t.hostObject = listCall (· == ·) s.hostObject (.removeObject 0 5) ∧ t.Balanced) ↔
        Fine (· == ·) s (.removeObject 0 5)) :=
  ⟨_, rfl, lists_iff_of_runs (· == ·) _ (.exec [.new 0, .addObject 0 5, .addObject 0 7] .start rfl) _ (by rintro ⟨⟩)⟩

/-- An object that is in an array twice: `removeObject:` leaves the second occurrence and removes what stands behind it,
    or panics when there is nothing. -/
theorem removes_neighbour : (∃ s t,
      exec (call (· == ·)) Valid start [.new 0, .addObject 0 5, .addObject 0 5, .addObject 0 7] = some s ∧
      s.hostObject 0 = some [5, 5, 7] ∧ s.call (· == ·) (.removeObject 0 5) = .ok ((), t) ∧ t.hostObject 0 = some [5]) ∧
    ∃ s, exec (call (· == ·)) Valid start [.new 0, .addObject 0 5, .addObject 0 5] = some s ∧
      s.hostObject 0 = some [5, 5] ∧ s.call (· == ·) (.removeObject 0 5) = .error .outOfBounds :=
  ⟨⟨_, _, rfl, rfl, rfl, rfl⟩, _, rfl, rfl, rfl⟩

end TouchHLE.Foundation.Arrays
