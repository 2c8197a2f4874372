import TouchHLE.Theorems.Fs.Directories

/-! # Enumerating a directory

`enumerate_recursive` lists what is below a directory in preorder. The loop empties its topmost iterator before it comes
back to the one below, so what it lists is said for one iterator at a time. -/

namespace TouchHLE.Fs
open Lib List

variable {node : FsNode} {b : Option HostPath} {rest children : List (Name × FsNode)} {name : Name} {as bs : List (List Name)}

def DistinctNames : List (Name × FsNode) → Prop
  | [] => True
  | (name, .file _ _) :: rest => name ∉ rest.map Prod.fst ∧ DistinctNames rest
  | (name, .directory children _) :: rest => name ∉ rest.map Prod.fst ∧ DistinctNames children ∧ DistinctNames rest

structure Lists (node : FsNode) (addresses : List (List Name)) : Prop where
  mem : ∀ p, p ∈ addresses ↔ p ≠ [] ∧ ∃ found, node.get p = some found
  order : addresses.Pairwise fun p q => ¬q <+: p

theorem lists_file (location : FileLocation) (writeable : Bool) : Lists (.file location writeable) [] := by
  refine ⟨fun p => ?_, .nil⟩
  cases p <;> simp [Lib.Tree.get]

theorem lists_nil : Lists (.node b []) [] := by
  refine ⟨fun p => ?_, .nil⟩
  cases p <;> simp [Lib.Tree.get, Tree.findChild]

theorem get_cons (b : Option HostPath) (k : Name) (p : List Name) : Lib.Tree.get (.node b ((name, node) :: rest)) (k :: p) =
      if k = name then node.get p else Lib.Tree.get (.node b rest) (k :: p) := by
  by_cases hk : k = name <;> simp [Lib.Tree.get, Tree.findChild_cons, hk]

theorem Lists.cons (hnm : name ∉ rest.map Prod.fst) (h : Lists node as) (hrs : Lists (.node b rest) bs) :
    Lists (.node b ((name, node) :: rest)) (([name] :: as.map (name :: ·)) ++ bs) := by
  have hno (q : List Name) : name :: q ∉ bs := by
    intro hq
    obtain ⟨-, found, hfd⟩ := (hrs.mem _).mp hq
    rw [← singleton_append, Tree.get_append] at hfd
    obtain ⟨child, hch, -⟩ := Option.bind_eq_some_iff.mp hfd
    rw [← nil_append [name], Tree.get_child rfl] at hch
    exact hnm (mem_map_of_mem (Tree.mem_of_findChild hch))
  refine ⟨fun p => ?_, pairwise_append.mpr ⟨pairwise_cons.mpr ⟨?_, ?_⟩, hrs.order, ?_⟩⟩
  · cases p with
    | nil => simp [hrs.mem]
    | cons k q =>
      rw [get_cons]
      by_cases hk : k = name
      · subst hk
        cases q <;> simp [hno, h.mem, Lib.Tree.get]
      · simp [hk, Ne.symm hk, hrs.mem]
  · intro q hq
    obtain ⟨r, hr, rfl⟩ := mem_map.mp hq
    simpa using ((h.mem r).mp hr).1
  · exact pairwise_map.mpr (h.order.imp fun hpq => by simpa using hpq)
  · intro p hp q hq hpre
    have hhd : p.head? = some name := by
      rcases mem_cons.mp hp with rfl | hp
      · rfl
      · obtain ⟨r, -, rfl⟩ := mem_map.mp hp
        rfl
    cases q with
    | nil => exact ((hrs.mem _).mp hq).1 rfl
    | cons k q =>
      obtain ⟨t, rfl⟩ := hpre
      cases hhd
      exact hno q hq

theorem enumerateLoop_lists (h : DistinctNames children) : ∃ addresses, Lists (.node b children) addresses ∧
    ∃ n, ∀ fuel stack below paths, enumerateLoop (fuel + n) stack (children :: below) paths =
      enumerateLoop fuel stack ([] :: below) (paths ++ addresses.map fun p => ['/'].intercalate (stack ++ p)) := by
  induction children using DistinctNames.induct generalizing b with
  | case1 => exact ⟨[], lists_nil, 0, by simp⟩
  | case2 name location writeable rest ih =>
    rw [DistinctNames] at h
    obtain ⟨bs, hbs, n, hn⟩ := ih h.2
    refine ⟨_, (lists_file location writeable).cons h.1 hbs, n + 1, fun fuel stack below paths => ?_⟩
    rw [← Nat.add_assoc, enumerateLoop, hn]
    simp
  | case3 name writeable children rest ih₁ ih₂ =>
    rw [DistinctNames] at h
    obtain ⟨as, has, n₁, hn₁⟩ := ih₁ h.2.1
    obtain ⟨bs, hbs, n₂, hn₂⟩ := ih₂ h.2.2
    refine ⟨_, has.cons h.1 hbs, n₂ + 1 + n₁ + 1, fun fuel stack below paths => ?_⟩
    rw [← Nat.add_assoc, ← Nat.add_assoc, ← Nat.add_assoc, enumerateLoop, hn₁, enumerateLoop, if_neg (by simp),
      dropLast_concat, hn₂]
    simp [Function.comp_def]

variable {self : Fs} {path : GuestPath} {p : List Name}

/-- With enough fuel, the paths of everything below a directory are returned, and the assertion holds. -/
theorem enumerateRecursive_lists (hres : Resolves self path p) (hget : self.root.get p = some (FsNode.directory children b))
    (h : DistinctNames children) :
    ∃ addresses, Lists (.directory children b) addresses ∧ addresses.Nodup ∧ ∃ n, ∀ fuel,
      enumerateRecursive (fuel + n) self path = .ok (.ok (addresses.map ['/'].intercalate)) := by
  obtain ⟨addresses, hlists, n, hn⟩ := enumerateLoop_lists h
  have hnodup : addresses.Nodup := by
    refine hlists.order.imp ?_
    rintro p _ hpre rfl
    exact hpre (prefix_refl p)
  refine ⟨addresses, hlists, hnodup, 1 + n, fun fuel => ?_⟩
  rw [enumerateRecursive, lookupNode_of_resolves hres, hget, ← Nat.add_assoc]
  simp [hn, enumerateLoop]

/-- A directory with a file in it, beside a file. -/
theorem enumerateRecursive_lists_nested : ∃ fs children, DistinctNames children ∧ ∃ addresses,
    Lists (.directory children none) addresses ∧ addresses.Nodup ∧ ∃ n, ∀ fuel,
      enumerateRecursive (fuel + n) fs ['/'] = .ok (.ok (addresses.map ['/'].intercalate)) :=
  have h : DistinctNames [(['a'], .directory [(['b'], .file (.ipaFileRef 0) false)] none),
      (['b'], .file (.ipaFileRef 1) false)] := by
    simp [DistinctNames]
  ⟨⟨.directory _ none, ['/'], ['/']⟩, _, h, enumerateRecursive_lists rfl rfl h⟩

end TouchHLE.Fs
