import TouchHLE.Fs

/-! # Guest paths

A guest path resolves to proper names: components of a path of the host that neither stay nor go up. -/

namespace TouchHLE.Fs
open Lib List
variable {components : List Name}

/-- A name that is a component of a path, and neither `.` nor `..`. -/
def ProperName (n : Name) : Prop := n ≠ [] ∧ n ≠ ['.'] ∧ n ≠ ['.', '.'] ∧ '/' ∉ n

theorem not_mem_splitSlash (cs : List Char) : ∀ n ∈ splitSlash cs, '/' ∉ n := by
  induction cs with
  | nil => simp [splitSlash]
  | cons c cs ih =>
    rw [splitSlash]
    split
    · intro n hn
      rcases mem_cons.mp hn with rfl | hn
      · simp
      · exact ih n hn
    · rename_i hc
      split
      · intro n hn
        rw [mem_singleton.mp hn]
        simpa using Ne.symm hc
      · rename_i name names hsp
        intro n hn
        rw [hsp] at ih
        rcases mem_cons.mp hn with rfl | hn
        · have hnm := ih name mem_cons_self
          simp only [mem_cons, not_or]
          exact ⟨Ne.symm hc, hnm⟩
        · exact ih n (mem_cons_of_mem name hn)

theorem splitSlash_eq_singleton {cs} (h : '/' ∉ cs) : splitSlash cs = [cs] := by
  induction cs with
  | nil => rfl
  | cons c cs ih =>
    simp only [mem_cons, not_or] at h
    rw [splitSlash, if_neg (Ne.symm h.1), ih h.2]

theorem applyPathComponent_proper {component} (h : ∀ n ∈ components, ProperName n)
    (hsls : '/' ∉ component) : ∀ n ∈ applyPathComponent components component, ProperName n := by
  rw [applyPathComponent]
  split
  · exact h
  · split
    · exact h
    · split
      · exact fun n hn => h n ((dropLast_sublist components).subset hn)
      · intro n hn
        rcases mem_append.mp hn with hn | hn
        · exact h n hn
        · rw [mem_singleton.mp hn]
          exact ⟨‹_›, ‹_›, ‹_›, hsls⟩

theorem foldl_applyPathComponent_proper {names : List Name} (h : ∀ n ∈ components, ProperName n)
    (hsls : ∀ n ∈ names, '/' ∉ n) : ∀ n ∈ names.foldl applyPathComponent components, ProperName n := by
  induction names generalizing components with
  | nil => exact h
  | cons name names ih =>
    exact ih (applyPathComponent_proper h (hsls name mem_cons_self))
      (fun n hn => hsls n (mem_cons_of_mem name hn))

theorem resolvePath_proper {path} {base}
    (h : resolvePath path base = .ok components) : ∀ n ∈ components, ProperName n := by
  have hnil : ∀ n ∈ ([] : List Name), ProperName n := by simp
  unfold resolvePath at h
  split at h
  · cases h
    exact foldl_applyPathComponent_proper hnil (not_mem_splitSlash path)
  · split at h
    · cases h
    · split at h
      · cases h
        exact foldl_applyPathComponent_proper (foldl_applyPathComponent_proper hnil (not_mem_splitSlash _))
          (not_mem_splitSlash path)
      · cases h

theorem hostJoin_proper {path} {name} (h : ProperName name) : hostJoin path name = path ++ [name] := by
  obtain ⟨hne, hdot, -, hsls⟩ := h
  have habs : name.head? ≠ some '/' := by
    intro hhd
    exact hsls (mem_of_head? hhd)
  simp [hostJoin, splitSlash_eq_singleton hsls, hne, hdot, habs]

end TouchHLE.Fs
