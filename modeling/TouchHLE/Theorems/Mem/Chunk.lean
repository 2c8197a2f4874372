import TouchHLE.Mem.Allocator

/-! Chunks as half-open spans of addresses. For a chunk that ends inside the 32-bit space the source's
    wrapping arithmetic is plain arithmetic on the two ends `base` and `hi`. -/

namespace TouchHLE.Mem

theorem wrap_of_lt {n : Nat} (h : n < 2 ^ 32) : wrap n = n := Nat.mod_eq_of_lt h

namespace Chunk

variable {c d r e : Chunk} {b n x : Nat}

def hi (c : Chunk) : Nat := c.base + c.size.get

def Has (c : Chunk) (x : Nat) : Prop := c.base ≤ x ∧ x < c.hi

def Apart (c d : Chunk) : Prop := c.hi ≤ d.base ∨ d.hi ≤ c.base

instance (c d : Chunk) : Decidable (c.Apart d) := inferInstanceAs (Decidable (_ ∨ _))

instance (c : Chunk) (x : Nat) : Decidable (c.Has x) := inferInstanceAs (Decidable (_ ∧ _))

theorem base_lt_hi (c : Chunk) : c.base < c.hi := Nat.lt_add_of_pos_right c.size.pos

theorem size_eq (c : Chunk) : c.size.get = c.hi - c.base := by
  unfold hi
  omega

theorem hi_eq (c : Chunk) : c.hi = c.base + c.size.get := rfl

theorem eq_of_ends (hb : c.base = d.base) (hh : c.hi = d.hi) : c = d := by
  obtain ⟨b, n, hn⟩ := c
  obtain ⟨b', n', hn'⟩ := d
  obtain rfl : b = b' := hb
  obtain rfl : n = n' := by simpa [hi] using hh
  rfl

theorem Apart.symm (h : c.Apart d) : d.Apart c := Or.comm.mp h

/-- Chunks are apart exactly when no address is in both. -/
theorem apart_iff : c.Apart d ↔ ∀ x, c.Has x → ¬d.Has x := by
  have hc := c.base_lt_hi
  have hd := d.base_lt_hi
  unfold Apart Has
  constructor
  · intro h x hcx hdx
    omega
  · intro h
    have := h (max c.base d.base)
    omega

theorem Apart.base_ne (h : c.Apart d) : c.base ≠ d.base := by
  have hc := c.base_lt_hi
  have hd := d.base_lt_hi
  unfold Apart at h
  omega

theorem not_apart_self (c : Chunk) : ¬c.Apart c := fun h => h.base_ne rfl

theorem new?_eq_some : new? b n = some d ↔ d.base = b ∧ d.size.get = n := by
  unfold new?
  split
  · rename_i h
    rw [Option.some_inj]
    constructor
    · rintro rfl
      exact ⟨rfl, rfl⟩
    · rintro ⟨rfl, rfl⟩
      rfl
  · rename_i h
    constructor
    · rintro ⟨⟩
    · rintro ⟨-, rfl⟩
      exact absurd d.size.pos h

theorem new_eq_ok : new b n = .ok d ↔ d.base = b ∧ d.size.get = n := by
  rw [← new?_eq_some]
  unfold new
  split
  · rename_i c h
    rw [h, Except.ok.injEq, Option.some_inj]
  · rename_i h
    simp [h]

theorem new_ok (h : 0 < n) : ∃ d, new b n = .ok d ∧ d.base = b ∧ d.hi = b + n :=
  ⟨⟨b, n, h⟩, new_eq_ok.mpr ⟨rfl, rfl⟩, rfl, rfl⟩

theorem lastByte_eq (h : c.hi ≤ 2 ^ 32) : c.lastByte = c.hi - 1 := by
  have := c.base_lt_hi
  have := c.hi_eq
  rw [lastByte, wrap_of_lt (by omega)]
  omega

theorem wrap_lastByte_succ (h : c.hi ≤ 2 ^ 32) : wrap (c.lastByte + 1) = if c.hi = 2 ^ 32 then 0 else c.hi := by
  have := c.base_lt_hi
  rw [lastByte_eq h, Nat.sub_add_cancel (by omega)]
  split
  · rename_i htop
    rw [htop]
    rfl
  · exact wrap_of_lt (by omega)

theorem contains_iff (h : c.hi ≤ 2 ^ 32) : c.contains x = true ↔ c.Has x := by
  have := c.base_lt_hi
  simp only [contains, lastByte_eq h, Bool.and_eq_true, decide_eq_true_eq, Has]
  omega

section
variable (hc : c.hi ≤ 2 ^ 32)
include hc

theorem merge_ok (hd : d.hi ≤ 2 ^ 32) (hsum : c.size.get + d.size.get < 2 ^ 32)
    (h : c.hi = d.base ∨ d.hi = c.base) :
    ∃ m, c.merge d = .ok m ∧ m.base = min c.base d.base ∧ m.hi = max c.hi d.hi := by
  have hcl := c.base_lt_hi
  have hdl := d.base_lt_hi
  have hce := c.hi_eq
  have hde := d.hi_eq
  have hadj : wrap (c.lastByte + 1) = d.base ∨ wrap (d.lastByte + 1) = c.base := by
    rw [wrap_lastByte_succ hc, wrap_lastByte_succ hd]
    rcases h with h | h
    · exact .inl (by rw [if_neg (by omega), h])
    · exact .inr (by rw [if_neg (by omega), h])
  obtain ⟨m, hm, hb, hhi⟩ := new_ok (n := c.size.get + d.size.get) (by omega)
  refine ⟨m, ?_, hb, ?_⟩
  · rw [merge, if_pos hadj, wrap_of_lt hsum, hm]
  · rw [hhi]
    omega

/-! ### What a chunk keeps when another is taken out of it -/

def pieces (c r : Chunk) : List Chunk := (c.difference r).1.toList ++ (c.difference r).2.toList

section
variable (hr : r.hi ≤ 2 ^ 32)
include hr

theorem mem_pieces : d ∈ c.pieces r ↔ (c.Apart r ∧ d = c) ∨
      (¬c.Apart r ∧ ((d.base = c.base ∧ d.hi = r.base) ∨ (d.base = r.hi ∧ d.hi = c.hi))) := by
  have hcl := c.base_lt_hi
  have hrl := r.base_lt_hi
  have hdl := d.base_lt_hi
  have hd := d.hi_eq
  simp only [pieces, difference, lastByte_eq hc, lastByte_eq hr]
  by_cases h₁ : r.hi ≤ c.base
  · have hap : c.Apart r := .inr h₁
    rw [if_pos (by omega)]
    simp [hap]
  · by_cases h₂ : c.hi ≤ r.base
    · have hap : c.Apart r := .inl h₂
      rw [if_neg (by omega), if_pos (by omega)]
      simp [hap]
    · have hap : ¬c.Apart r := by
        unfold Apart
        omega
      rw [if_neg (by omega), if_neg (by omega)]
      simp only [List.mem_append, Option.mem_toList, new?_eq_some, hap, false_and, not_false_eq_true, true_and, false_or]
      -- The right part starts after `r`, and is absent when `r` reaches the top.
      constructor
      · rintro (⟨hb, hs⟩ | ⟨hb, hs⟩)
        · exact .inl (by omega)
        · rw [wrap_of_lt (by omega)] at hb
          exact .inr (by omega)
      · rintro (⟨hb, hs⟩ | ⟨hb, hs⟩)
        · exact .inl (by omega)
        · rw [wrap_of_lt (by omega)]
          exact .inr (by omega)

/-- A piece lies in the chunk and apart from what was taken out. -/
theorem pieces_within (h : d ∈ c.pieces r) : c.base ≤ d.base ∧ d.hi ≤ c.hi ∧ d.Apart r := by
  rcases (mem_pieces hc hr).mp h with ⟨hap, rfl⟩ | ⟨hap, hca⟩
  · exact ⟨Nat.le_refl _, Nat.le_refl _, hap⟩
  · unfold Apart at hap ⊢
    omega

theorem exists_piece_has : (∃ d ∈ c.pieces r, d.Has x) ↔ c.Has x ∧ ¬r.Has x := by
  constructor
  · rintro ⟨d, hd, hx⟩
    obtain ⟨hlo, hhi, hap⟩ := pieces_within hc hr hd
    exact ⟨⟨Nat.le_trans hlo hx.1, Nat.lt_of_lt_of_le hx.2 hhi⟩, apart_iff.mp hap x hx⟩
  · rintro ⟨hcx, hrx⟩
    by_cases hap : c.Apart r
    · exact ⟨c, (mem_pieces hc hr).mpr (.inl ⟨hap, rfl⟩), hcx⟩
    · unfold Has at hcx hrx
      by_cases hlt : x < r.base
      · obtain ⟨d, -, hb, hhi⟩ := new_ok (n := r.base - c.base) (by omega)
        refine ⟨d, (mem_pieces hc hr).mpr (.inr ⟨hap, .inl ⟨hb, by omega⟩⟩), ?_⟩
        unfold Has
        omega
      · obtain ⟨d, -, hb, hhi⟩ := new_ok (n := c.hi - r.hi) (by omega)
        refine ⟨d, (mem_pieces hc hr).mpr (.inr ⟨hap, .inr ⟨hb, by omega⟩⟩), ?_⟩
        unfold Has
        omega

theorem difference_lt (hd : (c.difference r).1 = some d) (he : (c.difference r).2 = some e) : d.hi < e.base := by
  have hrl := r.base_lt_hi
  have hdl := d.hi_eq
  have hes := e.size.pos
  simp only [difference, lastByte_eq hc, lastByte_eq hr] at hd he
  by_cases h₁ : r.hi - 1 < c.base
  · rw [if_pos h₁] at hd
    cases hd
  · by_cases h₂ : r.base > c.hi - 1
    · rw [if_neg h₁, if_pos h₂] at he
      cases he
    · rw [if_neg h₁, if_neg h₂] at hd he
      obtain ⟨hdb, hds⟩ := new?_eq_some.mp hd
      obtain ⟨heb, hes'⟩ := new?_eq_some.mp he
      rw [Nat.sub_add_cancel (by omega), wrap_of_lt (by omega)] at heb
      omega

theorem pieces_apart (hd : d ∈ c.pieces r)
    (he : e ∈ c.pieces r) (hne : d ≠ e) : d.Apart e := by
  have hrl := r.base_lt_hi
  rcases (mem_pieces hc hr).mp hd with ⟨hap, rfl⟩ | ⟨hap, hd⟩ <;>
    rcases (mem_pieces hc hr).mp he with ⟨hap', rfl⟩ | ⟨hap', he⟩
  · exact absurd rfl hne
  · exact absurd hap hap'
  · exact absurd hap' hap
  · have hen : ¬(d.base = e.base ∧ d.hi = e.hi) := fun h => hne (eq_of_ends h.1 h.2)
    unfold Apart
    omega

end

theorem pieces_dvd {k : Nat} (hr : r.hi ≤ 2 ^ 32) (h : d ∈ c.pieces r)
    (hcb : k ∣ c.base) (hch : k ∣ c.hi) (hrb : k ∣ r.base) (hrh : k ∣ r.hi) : k ∣ d.base ∧ k ∣ d.hi := by
  rcases (mem_pieces hc hr).mp h with ⟨-, rfl⟩ | ⟨-, ⟨hb, hhi⟩ | ⟨hb, hhi⟩⟩
  · exact ⟨hcb, hch⟩
  · exact ⟨hb ▸ hcb, hhi ▸ hrb⟩
  · exact ⟨hb ▸ hrh, hhi ▸ hch⟩

end
end Chunk
end TouchHLE.Mem
