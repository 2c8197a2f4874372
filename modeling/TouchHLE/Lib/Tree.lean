import TouchHLE.Lib.Outcome

/-! Trees whose inner nodes name their children, addressed by lists of names and described by the label at each address;
    grafting and pruning a child change the labels below one address only. -/

namespace TouchHLE.Lib
open List

inductive Tree (κ α β : Type) where
  | leaf (a : α)
  | node (b : β) (children : List (κ × Tree κ α β))

namespace Tree
variable {κ α β γ : Type} [DecidableEq κ]

def findChild (k : κ) (children : List (κ × γ)) : Option γ := children.lookup k

def removeChild (k : κ) (children : List (κ × γ)) : List (κ × γ) := children.filter fun c => c.1 ≠ k

def insertChild (k : κ) (child : γ) (children : List (κ × γ)) : List (κ × γ) := (k, child) :: removeChild k children

theorem findChild_cons (k n : κ) (c : γ) (children : List (κ × γ)) :
    findChild k ((n, c) :: children) = if k = n then some c else findChild k children := by
  by_cases hk : k = n
  · simp [findChild, hk]
  · have hbeq : (k == n) = false := by simpa using hk
    simp [findChild, lookup_cons, hbeq, hk]

theorem findChild_removeChild (k k' : κ) (children : List (κ × γ)) :
    findChild k' (removeChild k children) = if k' = k then none else findChild k' children := by
  induction children with
  | nil => simp [removeChild, findChild]
  | cons c children ih =>
    obtain ⟨n, c⟩ := c
    by_cases hn : n = k
    · have hdr : removeChild k ((n, c) :: children) = removeChild k children := by simp [removeChild, hn]
      rw [hdr, ih, findChild_cons, hn]
      split <;> rfl
    · have hke : removeChild k ((n, c) :: children) = (n, c) :: removeChild k children := by simp [removeChild, hn]
      rw [hke, findChild_cons, findChild_cons, ih]
      by_cases hk : k' = k
      · simp [hk, Ne.symm hn]
      · simp [hk]

theorem findChild_insertChild (k k' : κ) (child : γ) (children : List (κ × γ)) :
    findChild k' (insertChild k child children) = if k' = k then some child else findChild k' children := by
  rw [insertChild, findChild_cons, findChild_removeChild]
  split <;> rfl

/-- After children were inserted one after the other, a child is one of them, or it was there before. -/
theorem findChild_foldl_insertChild {f : κ → γ} {ks : List κ} {children : List (κ × γ)} {k : κ} {child : γ}
    (h : findChild k (ks.foldl (fun children n => insertChild n (f n) children) children) = some child) :
    k ∉ ks ∧ findChild k children = some child ∨ k ∈ ks ∧ child = f k := by
  induction ks generalizing children with
  | nil => exact .inl ⟨not_mem_nil, h⟩
  | cons n ks ih =>
    rcases ih h with ⟨hk, hfn⟩ | ⟨hk, hch⟩
    · rw [findChild_insertChild] at hfn
      split at hfn
      · rename_i heq
        cases hfn
        exact .inr ⟨heq ▸ mem_cons_self, by rw [heq]⟩
      · rename_i hne
        exact .inl ⟨by simp [hne, hk], hfn⟩
    · exact .inr ⟨mem_cons_of_mem n hk, hch⟩

def get : Tree κ α β → List κ → Option (Tree κ α β)
  | t, [] => some t
  | leaf _, _ :: _ => none
  | node _ children, k :: p =>
    match findChild k children with
    | none => none
    | some child => child.get p

def modify (f : Tree κ α β → Tree κ α β) : List κ → Tree κ α β → Tree κ α β
  | [], t => f t
  | _ :: _, leaf a => leaf a
  | k :: p, node b children => node b (children.map fun c => (c.1, if c.1 = k then modify f p c.2 else c.2))

def label : Tree κ α β → α ⊕ β
  | leaf a => .inl a
  | node b _ => .inr b

def labelAt (t : Tree κ α β) (p : List κ) : Option (α ⊕ β) := (t.get p).map label

def onChildren (f : List (κ × Tree κ α β) → List (κ × Tree κ α β)) : Tree κ α β → Tree κ α β
  | leaf a => leaf a
  | node b children => node b (f children)

def graft (t : Tree κ α β) (p : List κ) (k : κ) (child : Tree κ α β) : Tree κ α β :=
  t.modify (onChildren (insertChild k child)) p

def prune (t : Tree κ α β) (p : List κ) (k : κ) : Tree κ α β := t.modify (onChildren (removeChild k)) p

variable {t child : Tree κ α β} {b : β} {children : List (κ × Tree κ α β)} {p q : List κ} {k : κ}

theorem get_append (t : Tree κ α β) (p q : List κ) : t.get (p ++ q) = (t.get p).bind (·.get q) := by
  induction p generalizing t with
  | nil => simp [get]
  | cons k p ih =>
    cases t with
    | leaf a => simp [get]
    | node b children =>
      simp only [cons_append, get]
      cases findChild k children with
      | none => rfl
      | some child => exact ih child

theorem get_child (h : t.get p = some (node b children)) (k : κ) : t.get (p ++ [k]) = findChild k children := by
  rw [get_append, h]
  simp only [Option.bind_some, get]
  cases findChild k children <;> rfl

theorem mem_of_findChild {children : List (κ × γ)} {c : γ} (h : findChild k children = some c) : (k, c) ∈ children := by
  induction children with
  | nil => cases h
  | cons e children ih =>
    rw [findChild_cons] at h
    split at h
    · rename_i heq
      cases h
      rw [heq]
      exact mem_cons_self
    · exact mem_cons_of_mem _ (ih h)

theorem sizeOf_get_lt {u : Tree κ α β} (h : t.get p = some u) (hp : p ≠ []) : sizeOf u < sizeOf t := by
  induction p generalizing t with
  | nil => exact absurd rfl hp
  | cons k p ih =>
    cases t with
    | leaf a => cases h
    | node b children =>
      rw [get] at h
      split at h
      · cases h
      · rename_i child hch
        have hmem := sizeOf_lt_of_mem (mem_of_findChild hch)
        have hlt : sizeOf child < sizeOf (node b children) := by
          simp only [Prod.mk.sizeOf_spec, node.sizeOf_spec] at hmem ⊢
          omega
        cases p with
        | nil =>
          cases h
          exact hlt
        | cons k' p => exact Nat.lt_trans (ih h (cons_ne_nil k' p)) hlt

theorem exists_parent {u : Tree κ α β} (h : t.get (p ++ [k]) = some u) :
    ∃ b children, t.get p = some (node b children) ∧ findChild k children = some u := by
  rw [get_append] at h
  obtain ⟨parent, hprn, hch⟩ := Option.bind_eq_some_iff.mp h
  cases parent with
  | leaf a => cases hch
  | node b children =>
    refine ⟨b, children, hprn, ?_⟩
    have hget := get_child hprn k
    rw [get_append, h] at hget
    exact hget.symm

theorem labelAt_nil (t : Tree κ α β) : t.labelAt [] = some t.label := rfl

theorem labelAt_node_cons (b : β) (children : List (κ × Tree κ α β)) (k : κ) (p : List κ) :
    (node b children).labelAt (k :: p) = (findChild k children).bind (·.labelAt p) := by
  simp only [labelAt, get]
  cases findChild k children <;> rfl

/-- The rule for all labels of a tree: the label of its root, and those of its children. -/
theorem labels_node {P : List κ → α ⊕ β → Prop} (hrt : P [] (.inr b))
    (hch : ∀ k child, findChild k children = some child → ∀ p l, child.labelAt p = some l → P (k :: p) l) :
    ∀ p l, (node b children).labelAt p = some l → P p l := by
  intro p l hl
  cases p with
  | nil =>
    cases hl
    exact hrt
  | cons k p =>
    rw [labelAt_node_cons] at hl
    obtain ⟨child, hfn, hl⟩ := Option.bind_eq_some_iff.mp hl
    exact hch k child hfn p l hl

theorem labels_leaf {P : List κ → α ⊕ β → Prop} {a : α} (h : P [] (.inl a)) :
    ∀ p l, (leaf a : Tree κ α β).labelAt p = some l → P p l := by
  intro p l hl
  cases p with
  | nil =>
    cases hl
    exact h
  | cons k p => cases hl

theorem findChild_map (f : Tree κ α β → Tree κ α β) (k k' : κ) (children : List (κ × Tree κ α β)) :
    findChild k' (children.map fun c => (c.1, if c.1 = k then f c.2 else c.2)) =
      if k' = k then (findChild k' children).map f else findChild k' children := by
  induction children with
  | nil => simp [findChild]
  | cons c children ih =>
    obtain ⟨n, c⟩ := c
    rw [map_cons, findChild_cons, ih, findChild_cons]
    by_cases hk : k' = n
    · subst hk
      by_cases hc : k' = k
      · simp [hc]
      · simp [hc]
    · simp [hk]

theorem labelAt_modify (f : List (κ × Tree κ α β) → List (κ × Tree κ α β)) (h : t.get p = some (node b children))
    (q : List κ) : (t.modify (onChildren f) p).labelAt q =
      if p <+: q then (node b (f children)).labelAt (q.drop p.length) else t.labelAt q := by
  induction p generalizing t q with
  | nil =>
    cases h
    simp [modify, onChildren]
  | cons k p ih =>
    cases t with
    | leaf a => simp [get] at h
    | node b' cs =>
      cases q with
      | nil => simp [modify, labelAt_nil, label]
      | cons k' q =>
        rw [modify, labelAt_node_cons, findChild_map, labelAt_node_cons]
        by_cases hk : k' = k
        · subst hk
          rw [get] at h
          cases hc : findChild k' cs with
          | none => simp [hc] at h
          | some c =>
            simp only [hc] at h
            simp [ih h q]
        · have hnot : ¬(k :: p) <+: (k' :: q) := by
            intro hpre
            exact hk (cons_prefix_cons.mp hpre).1.symm
          simp [hk, hnot]

section
variable (h : t.get p = some (node b children))
include h

/-- A change of one child at an address: `x` is what it becomes. -/
theorem labelAt_modify_child {f : List (κ × Tree κ α β) → List (κ × Tree κ α β)} {x : Option (Tree κ α β)}

    (hf : ∀ k', findChild k' (f children) = if k' = k then x else findChild k' children) (q : List κ) :
    (t.modify (onChildren f) p).labelAt q =
      if p ++ [k] <+: q then x.bind (·.labelAt (q.drop (p.length + 1))) else t.labelAt q := by
  rw [labelAt_modify _ h]
  by_cases hp : p <+: q
  · obtain ⟨r, rfl⟩ := hp
    rw [if_pos (prefix_append p r), drop_left]
    have hold : t.labelAt (p ++ r) = (node b children).labelAt r := by
      rw [labelAt, get_append, h]
      rfl
    cases r with
    | nil =>
      have hnot : ¬p ++ [k] <+: p ++ [] := by
        intro hpre
        have hlen := hpre.length_le
        simp at hlen
      rw [if_neg hnot, hold]
      rfl
    | cons k' r =>
      rw [labelAt_node_cons, hf]
      by_cases hk : k' = k
      · subst hk
        rw [if_pos rfl, if_pos ⟨r, by simp⟩, ← drop_drop, drop_left]
        rfl
      · have hnot : ¬p ++ [k] <+: p ++ k' :: r := by
          intro hpre
          rw [prefix_append_right_inj] at hpre
          exact hk (cons_prefix_cons.mp hpre).1.symm
        rw [if_neg hk, if_neg hnot, hold, labelAt_node_cons]
  · have hnot : ¬p ++ [k] <+: q := fun hpre => hp ((prefix_append p [k]).trans hpre)
    rw [if_neg hp, if_neg hnot]

theorem labelAt_graft (q : List κ) : (t.graft p k child).labelAt q =
      if p ++ [k] <+: q then child.labelAt (q.drop (p.length + 1)) else t.labelAt q :=
  labelAt_modify_child h (fun k' => findChild_insertChild k k' child children) q

theorem labelAt_prune (q : List κ) : (t.prune p k).labelAt q = if p ++ [k] <+: q then none else t.labelAt q :=
  labelAt_modify_child h (fun k' => findChild_removeChild k k' children) q

end

end Tree
end TouchHLE.Lib
