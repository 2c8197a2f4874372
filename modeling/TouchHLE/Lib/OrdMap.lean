import Mathlib.Algebra.Order.Ring.Nat
import Mathlib.Data.List.Nodup
import Mathlib.Data.List.Perm.Basic

/-! Finite maps with ordered keys, as a list of entries sorted by key, with two range queries: the last entry whose key is
    below a bound, and the entries between two bounds. -/

namespace TouchHLE.Lib
open List

/-- A finite map from `κ` to `ν`: its entries, with strictly increasing keys. -/
structure OrdMap (κ ν : Type) [LinearOrder κ] where
  entries : List (κ × ν)
  sorted : entries.Pairwise fun a b => a.1 < b.1

namespace OrdMap
variable {κ ν : Type} [LinearOrder κ] {m : OrdMap κ ν} {e : κ × ν} {k : κ} {v : ν} {p : κ → Bool}

instance : Membership (κ × ν) (OrdMap κ ν) := ⟨fun m e => e ∈ m.entries⟩

theorem mem_def : e ∈ m ↔ e ∈ m.entries := Iff.rfl

theorem keys_nodup (m : OrdMap κ ν) : (m.entries.map Prod.fst).Nodup := pairwise_map.mpr (m.sorted.imp fun h => h.ne)

theorem eq_of_key {f : κ × ν} (he : e ∈ m) (hf : f ∈ m) (hk : e.1 = f.1) : e = f :=
  inj_on_of_nodup_map m.keys_nodup he hf hk

/-- Two maps with the same entries are equal: a list sorted by a strict order is determined by its members. -/
theorem ext_mem {n : OrdMap κ ν} (h : ∀ e, e ∈ m ↔ e ∈ n) : m = n := by
  have perm : m.entries.Perm n.entries := (perm_ext_iff_of_nodup m.keys_nodup.of_map n.keys_nodup.of_map).mpr h
  have heq := perm.eq_of_pairwise (fun a b _ _ hab hba => absurd hab hba.not_gt) m.sorted n.sorted
  cases m
  cases heq
  rfl

def empty : OrdMap κ ν := ⟨[], .nil⟩

@[simp] theorem not_mem_empty (e : κ × ν) : e ∉ (empty : OrdMap κ ν) := not_mem_nil

def lookup (m : OrdMap κ ν) (k : κ) : Option ν := (m.entries.find? fun e => e.1 = k).map (·.2)

theorem lookup_eq_some : m.lookup k = some v ↔ (k, v) ∈ m := by
  constructor
  · intro h
    obtain ⟨⟨k', v'⟩, hf, rfl⟩ := Option.map_eq_some_iff.mp h
    obtain rfl : k' = k := by simpa using find?_some hf
    exact mem_of_find?_eq_some hf
  · intro h
    have hso : (m.entries.find? fun e => e.1 = k).isSome := find?_isSome.mpr ⟨(k, v), h, by simp⟩
    obtain ⟨e, he⟩ := Option.isSome_iff_exists.mp hso
    have hk : e.1 = k := by simpa using find?_some he
    obtain rfl := eq_of_key (mem_of_find?_eq_some he) h hk
    rw [lookup, he]
    rfl

theorem lookup_eq_none : m.lookup k = none ↔ ∀ v, (k, v) ∉ m := by
  rw [Option.eq_none_iff_forall_ne_some]
  exact forall_congr' fun v => not_congr lookup_eq_some

def erase (m : OrdMap κ ν) (k : κ) : OrdMap κ ν := ⟨m.entries.filter fun e => e.1 ≠ k, m.sorted.filter _⟩

@[simp] theorem mem_erase : e ∈ m.erase k ↔ e ∈ m ∧ e.1 ≠ k := by
  simp [erase, mem_def]

def insert (m : OrdMap κ ν) (k : κ) (v : ν) : OrdMap κ ν where
  entries := (m.entries.filter fun e => e.1 < k) ++ (k, v) :: m.entries.filter fun e => k < e.1
  sorted := by
    refine pairwise_append.mpr ⟨m.sorted.filter _, pairwise_cons.mpr ⟨?_, m.sorted.filter _⟩, ?_⟩
    · intro e he
      simpa using (mem_filter.mp he).2
    · intro a ha b hb
      have hak : a.1 < k := by simpa using (mem_filter.mp ha).2
      rcases mem_cons.mp hb with rfl | hb
      · exact hak
      · exact hak.trans (by simpa using (mem_filter.mp hb).2)

@[simp] theorem mem_insert : e ∈ m.insert k v ↔ e = (k, v) ∨ (e ∈ m ∧ e.1 ≠ k) := by
  simp only [insert, mem_def, mem_append, mem_cons, mem_filter, decide_eq_true_eq]
  constructor
  · rintro (⟨he, hlt⟩ | rfl | ⟨he, hlt⟩)
    · exact .inr ⟨he, hlt.ne⟩
    · exact .inl rfl
    · exact .inr ⟨he, hlt.ne'⟩
  · rintro (rfl | ⟨he, hne⟩)
    · exact .inr (.inl rfl)
    · rcases lt_or_gt_of_ne hne with hlt | hlt
      · exact .inl ⟨he, hlt⟩
      · exact .inr (.inr ⟨he, hlt⟩)

theorem entries_nodup (m : OrdMap κ ν) : m.entries.Nodup := m.keys_nodup.of_map

/-- Whatever an entry with the key was before, the others are those of the map without it. -/
theorem insert_perm (m : OrdMap κ ν) (k : κ) (v : ν) : (m.insert k v).entries.Perm ((k, v) :: (m.erase k).entries) := by
  refine (perm_ext_iff_of_nodup (entries_nodup _) (nodup_cons.mpr ⟨?_, entries_nodup _⟩)).mpr fun e => ?_
  · exact fun h => (mem_erase.mp h).2 rfl
  · rw [mem_cons, ← mem_def, ← mem_def, mem_insert, mem_erase]

theorem perm_of_lookup (h : m.lookup k = some v) : m.entries.Perm ((k, v) :: (m.erase k).entries) := by
  refine (perm_ext_iff_of_nodup (entries_nodup _) (nodup_cons.mpr ⟨?_, entries_nodup _⟩)).mpr fun e => ?_
  · exact fun h => (mem_erase.mp h).2 rfl
  · rw [mem_cons, ← mem_def, ← mem_def, mem_erase]
    constructor
    · intro he
      by_cases hk : e.1 = k
      · exact .inl (eq_of_key he (lookup_eq_some.mp h) hk)
      · exact .inr ⟨he, hk⟩
    · rintro (rfl | ⟨he, -⟩)
      · exact lookup_eq_some.mp h
      · exact he

theorem erase_of_lookup_none (h : m.lookup k = none) : m.erase k = m := by
  refine ext_mem fun e => ?_
  rw [mem_erase]
  refine ⟨And.left, fun he => ⟨he, ?_⟩⟩
  rintro rfl
  exact lookup_eq_none.mp h e.2 he

theorem lookup_insert_self (m : OrdMap κ ν) (k : κ) (v : ν) : (m.insert k v).lookup k = some v :=
  lookup_eq_some.mpr (mem_insert.mpr (.inl rfl))

theorem lookup_insert_of_ne {k' : κ} (v : ν) (h : k' ≠ k) : (m.insert k v).lookup k' = m.lookup k' := by
  refine Option.ext fun w => ?_
  rw [lookup_eq_some, lookup_eq_some, mem_insert]
  constructor
  · rintro (heq | ⟨hmem, -⟩)
    · exact absurd (congrArg Prod.fst heq) h
    · exact hmem
  · exact fun hmem => .inr ⟨hmem, h⟩

def lastWhere (m : OrdMap κ ν) (p : κ → Bool) : Option (κ × ν) := (m.entries.filter fun e => p e.1).getLast?

theorem lastWhere_eq_some (h : m.lastWhere p = some e) : e ∈ m ∧ p e.1 = true ∧ ∀ f ∈ m, p f.1 = true → f.1 ≤ e.1 := by
  obtain ⟨l, hl⟩ := getLast?_eq_some_iff.mp h
  have hmem : e ∈ m.entries.filter fun e => p e.1 := by rw [hl]; simp
  refine ⟨(mem_filter.mp hmem).1, (mem_filter.mp hmem).2, fun f hf hpf => ?_⟩
  have hf' : f ∈ m.entries.filter fun e => p e.1 := mem_filter.mpr ⟨hf, hpf⟩
  have hsrt := m.sorted.filter fun e => p e.1
  rw [hl] at hf' hsrt
  rcases mem_append.mp hf' with hf' | hf'
  · exact ((pairwise_append.mp hsrt).2.2 f hf' e (mem_singleton_self e)).le
  · exact (congrArg Prod.fst (mem_singleton.mp hf')).le

theorem lastWhere_eq_none (h : m.lastWhere p = none) : ∀ f ∈ m, p f.1 = false := by
  intro f hf
  have hnil := getLast?_eq_none_iff.mp h
  simpa using filter_eq_nil_iff.mp hnil f hf

def range (m : OrdMap κ ν) (lo hi : κ) : List (κ × ν) := m.entries.filter fun e => lo ≤ e.1 ∧ e.1 ≤ hi

theorem mem_range {lo hi : κ} : e ∈ m.range lo hi ↔ e ∈ m ∧ lo ≤ e.1 ∧ e.1 ≤ hi := by
  simp [range, mem_def]

theorem range_nodup (m : OrdMap κ ν) (lo hi : κ) : ((m.range lo hi).map Prod.fst).Nodup :=
  pairwise_map.mpr ((m.sorted.filter _).imp fun h => h.ne)

end OrdMap
end TouchHLE.Lib
