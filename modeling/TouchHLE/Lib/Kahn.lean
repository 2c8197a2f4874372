import Mathlib.Data.List.Nodup
import Mathlib.Data.List.Perm.Basic
import Mathlib.Data.List.Perm.Subperm
import Mathlib.Data.List.Count
import Mathlib.Data.Set.Finite.List
import Mathlib.Order.RelClasses
import Mathlib.Logic.Relation
import Mathlib.Order.WellFounded
import Mathlib.Order.Fin.Basic

/-! Sorting the nodes of a graph topologically. Each node has a number of incoming edges still to be seen. A node without any
    is taken from a queue, and the edges that leave it are seen. -/

namespace TouchHLE.Lib.Kahn
open List Function
variable {α : Type} [DecidableEq α]

structure Sorting (α : Type) where
  queue : List α
  sorted : List α
  inDegrees : α → Option Int

def Sorting.see (s : Sorting α) (x : α) : Sorting α :=
  match s.inDegrees x with
  | none => s
  | some inDegree =>
    { s with
      inDegrees := update s.inDegrees x (some (inDegree - 1))
      queue := if inDegree - 1 = 0 then s.queue ++ [x] else s.queue }

def Sorting.round (next : α → List α) (s : Sorting α) : Sorting α :=
  match s.queue with
  | [] => s
  | a :: queue => (next a).foldl see { s with queue, sorted := s.sorted ++ [a] }

def left (nodes sorted : List α) : List α := nodes.filter fun a => decide (a ∉ sorted)

def degree (next : α → List α) (nodes sorted : List α) (x : α) : Nat := ((left nodes sorted).flatMap next).count x

theorem mem_left {nodes sorted : List α} {a : α} : a ∈ left nodes sorted ↔ a ∈ nodes ∧ a ∉ sorted := by
  simp [left]

theorem nodup_left {nodes sorted : List α} (h : nodes.Nodup) : (left nodes sorted).Nodup := h.filter _

theorem degree_cons {next : α → List α} {nodes sorted : List α} (hns : nodes.Nodup) {a : α} (ha : a ∈ nodes)
    (hsrt : a ∉ sorted) (x : α) :
    degree next nodes sorted x = (next a).count x + degree next nodes (sorted ++ [a]) x := by
  have hlf : (left nodes sorted).Perm (a :: left nodes (sorted ++ [a])) := by
    refine (perm_ext_iff_of_nodup (nodup_left hns) ?_).mpr ?_
    · exact nodup_cons.mpr ⟨by simp [mem_left], nodup_left hns⟩
    · intro b
      rw [mem_cons, mem_left, mem_left, mem_append, mem_singleton]
      by_cases hb : b = a
      · subst hb
        simp [ha, hsrt]
      · simp [hb]
  rw [degree, (hlf.flatMap_right next).count_eq, flatMap_cons, count_append, degree]

/-- The state while the edges to `unseen` are still to be seen. In-degrees count these and the edges from what is not sorted;
    a node is sorted or queued once there are none. -/
structure Inv (next : α → List α) (nodes unseen : List α) (s : Sorting α) : Prop where
  nodup : (s.sorted ++ s.queue).Nodup
  known : ∀ x ∈ s.sorted ++ s.queue, x ∈ nodes
  inDegrees : ∀ x ∈ nodes, s.inDegrees x = some ((unseen.count x + degree next nodes s.sorted x : Nat) : Int)
  zero : ∀ x ∈ nodes, x ∈ s.sorted ++ s.queue ↔ unseen.count x + degree next nodes s.sorted x = 0
  after : ∀ before x rest, s.sorted = before ++ x :: rest → ∀ a ∈ nodes, x ∈ next a → a ∈ before

section Rounds
variable {next : α → List α} {nodes unseen : List α} {s : Sorting α}

theorem Inv.see_eq {x : α} (h : Inv next nodes (x :: unseen) s) (hx : x ∈ nodes) : s.see x = { s with
    inDegrees := update s.inDegrees x (some ((unseen.count x + degree next nodes s.sorted x : Nat) : Int))
    queue := if unseen.count x + degree next nodes s.sorted x = 0 then s.queue ++ [x] else s.queue } := by
  have hdeg := h.inDegrees x hx
  rw [count_cons_self, Nat.add_right_comm] at hdeg
  simp only [Sorting.see, hdeg, Int.natCast_succ, Int.add_sub_cancel, Int.natCast_eq_zero]

theorem Inv.see {x : α} (h : Inv next nodes (x :: unseen) s) (hx : x ∈ nodes) : Inv next nodes unseen (s.see x) := by
  have hfh : x ∉ s.sorted ++ s.queue := fun hold => by
    have hzr := (h.zero x hx).mp hold
    rw [count_cons_self] at hzr
    omega
  have hoh : ∀ y, y ≠ x → (x :: unseen).count y = unseen.count y := fun y hy => count_cons_of_ne (Ne.symm hy)
  have hdgr : ∀ y ∈ nodes, update s.inDegrees x
      (some ((unseen.count x + degree next nodes s.sorted x : Nat) : Int)) y =
        some ((unseen.count y + degree next nodes s.sorted y : Nat) : Int) := by
    intro y hy
    rcases eq_or_ne y x with rfl | hyx
    · exact update_self _ _ _
    · rw [update_of_ne hyx, h.inDegrees y hy, hoh y hyx]
  rw [h.see_eq hx]
  split
  · -- The last edge to `x` has been seen.
    rename_i hls
    have hli : s.sorted ++ (s.queue ++ [x]) = s.sorted ++ s.queue ++ [x] := (append_assoc _ _ _).symm
    refine ⟨?_, ?_, hdgr, fun y hy => ?_, h.after⟩
    · rw [hli]
      exact h.nodup.append (nodup_singleton x) (disjoint_singleton.mpr hfh)
    · rw [hli]
      intro y hy
      rcases mem_append.mp hy with hy | hy
      · exact h.known y hy
      · exact mem_singleton.mp hy ▸ hx
    · rw [hli, mem_append, mem_singleton, h.zero y hy]
      rcases eq_or_ne y x with rfl | hyx
      · simp [hls]
      · simp [hyx, hoh y hyx]
  · rename_i hmr
    refine ⟨h.nodup, h.known, hdgr, fun y hy => ?_, h.after⟩
    rcases eq_or_ne y x with rfl | hyx
    · exact iff_of_false hfh hmr
    · exact (h.zero y hy).trans (by rw [hoh y hyx])

theorem Inv.foldl_see {seen : List α} (hsee : ∀ x ∈ seen, x ∈ nodes) (h : Inv next nodes (seen ++ unseen) s) :
    Inv next nodes unseen (seen.foldl .see s) := by
  induction seen generalizing s with
  | nil => exact h
  | cons x seen ih =>
    exact ih (fun y hy => hsee y (mem_cons_of_mem x hy)) (h.see (hsee x mem_cons_self))

theorem foldl_see_sorted (xs : List α) (s : Sorting α) : (xs.foldl .see s).sorted = s.sorted := by
  induction xs generalizing s with
  | nil => rfl
  | cons x xs ih =>
    rw [foldl_cons, ih, Sorting.see]
    split <;> rfl

theorem round_nil (h : s.queue = []) : s.round next = s := by
  simp [Sorting.round, h]

theorem round_cons {a : α} {queue : List α} (h : s.queue = a :: queue) :
    s.round next = (next a).foldl .see { s with queue, sorted := s.sorted ++ [a] } := by
  simp [Sorting.round, h]

/-- A node without edges from what is not sorted has all its edges from what is. -/
theorem mem_sorted_of_degree_zero {sorted : List α} {x a : α} (h : degree next nodes sorted x = 0) (ha : a ∈ nodes)
    (hx : x ∈ next a) : a ∈ sorted := by
  by_contra hnot
  exact count_eq_zero.mp h (mem_flatMap.mpr ⟨a, mem_left.mpr ⟨ha, hnot⟩, hx⟩)

theorem Inv.take (hns : nodes.Nodup) (h : Inv next nodes [] s) {a : α} {queue : List α} (hq : s.queue = a :: queue) :
    Inv next nodes (next a) { s with queue, sorted := s.sorted ++ [a] } := by
  have haq : a ∈ s.sorted ++ s.queue := by simp [hq]
  have ha := h.known a haq
  have hnd : (s.sorted ++ a :: queue).Nodup := hq ▸ h.nodup
  have hnot : a ∉ s.sorted := fun hs => disjoint_of_nodup_append hnd hs mem_cons_self
  have hdeg : ∀ x, ([] : List α).count x + degree next nodes s.sorted x =
      (next a).count x + degree next nodes (s.sorted ++ [a]) x := by
    intro x
    rw [count_nil, Nat.zero_add]
    exact degree_cons hns ha hnot x
  have hli : s.sorted ++ [a] ++ queue = s.sorted ++ s.queue := by simp [hq]
  refine ⟨?_, ?_, fun x hx => ?_, fun x hx => ?_, ?_⟩
  · rw [hli]
    exact h.nodup
  · rw [hli]
    exact h.known
  · rw [h.inDegrees x hx, hdeg x]
  · rw [hli, h.zero x hx, hdeg x]
  · intro before x rest hsp b hb hxb
    rcases eq_nil_or_concat rest with rfl | ⟨rest', y, rfl⟩
    · obtain ⟨rfl, hxa⟩ := append_inj' hsp rfl
      cases hxa
      exact mem_sorted_of_degree_zero (Nat.eq_zero_of_add_eq_zero_left ((h.zero a ha).mp haq)) hb hxb
    · have hsp' : s.sorted ++ [a] = (before ++ x :: rest') ++ [y] := by simpa using hsp
      obtain ⟨hs, -⟩ := append_inj' hsp' rfl
      exact h.after before x rest' hs b hb hxb

section
variable (hns : nodes.Nodup) (hnx : ∀ a ∈ nodes, ∀ x ∈ next a, x ∈ nodes) (h : Inv next nodes [] s)
include hns hnx h

theorem Inv.round : Inv next nodes [] (s.round next) := by
  cases hq : s.queue with
  | nil => exact (round_nil hq).symm ▸ h
  | cons a queue =>
    rw [round_cons hq]
    refine .foldl_see (hnx a (h.known a (by simp [hq]))) ?_
    rw [append_nil]
    exact h.take hns hq

theorem Inv.see_pos {a x : α}
    {queue seen unseen : List α} (hq : s.queue = a :: queue) (hsp : next a = seen ++ x :: unseen) :
    ∃ n, (seen.foldl Sorting.see { s with queue, sorted := s.sorted ++ [a] }).inDegrees x = some ((n + 1 : Nat) : Int) := by
  have hmem := hsp ▸ hnx a (h.known a (by simp [hq]))
  have hinv := Inv.foldl_see (fun y hy => hmem y (mem_append_left _ hy)) (hsp ▸ h.take hns hq)
  have hdeg := hinv.inDegrees x (hmem x (by simp))
  rw [count_cons_self, Nat.add_right_comm] at hdeg
  exact ⟨_, hdeg⟩

omit hns hnx h in
theorem length_sorted_round (hq : s.queue ≠ []) : (s.round next).sorted.length = s.sorted.length + 1 := by
  obtain ⟨a, queue, ha⟩ := exists_cons_of_ne_nil hq
  rw [round_cons ha, foldl_see_sorted, length_append, length_singleton]

theorem Inv.rounds (n : Nat) : Inv next nodes [] ((.round next)^[n] s) := by
  induction n with
  | zero => exact h
  | succ n ih => exact Function.iterate_succ_apply' (.round next) n s ▸ ih.round hns hnx

omit hns hnx h in
theorem length_sorted_rounds (n : Nat) : ((.round next)^[n] s).queue = [] ∨ n ≤ ((.round next)^[n] s).sorted.length := by
  induction n with
  | zero => exact .inr (Nat.zero_le _)
  | succ n ih =>
    rw [Function.iterate_succ_apply']
    by_cases hq : ((.round next)^[n] s).queue = []
    · exact .inl (by rw [round_nil hq, hq])
    · right
      rw [length_sorted_round hq]
      exact Nat.succ_le_succ (ih.resolve_left hq)

theorem Inv.queue_eq_nil : ((.round next)^[nodes.length] s).queue = [] := by
  have hinv := h.rounds hns hnx nodes.length
  rcases @length_sorted_rounds α _ next s nodes.length with hq | hlen
  · exact hq
  · have hle := (subperm_of_subset hinv.nodup hinv.known).length_le
    rw [length_append] at hle
    exact length_eq_zero_iff.mp (by omega)

end

def Edge (next : α → List α) (nodes : List α) (a x : α) : Prop := a ∈ nodes ∧ x ∈ next a

def Acyclic (next : α → List α) (nodes : List α) : Prop := ∀ x, ¬Relation.TransGen (Edge next nodes) x x

theorem Inv.idxOf_lt (h : Inv next nodes [] s) {a x : α} (hx : x ∈ s.sorted) (heg : Edge next nodes a x) :
    s.sorted.idxOf a < s.sorted.idxOf x := by
  obtain ⟨before, rest, hsp⟩ := append_of_mem hx
  have ha := h.after before x rest hsp a heg.1 heg.2
  have hnd : (before ++ x :: rest).Nodup := hsp ▸ (nodup_append.mp h.nodup).1
  have hnot : x ∉ before := fun hb => disjoint_of_nodup_append hnd hb mem_cons_self
  rw [hsp, idxOf_append_of_mem ha, idxOf_append_of_notMem hnot, idxOf_cons_self, Nat.add_zero]
  exact idxOf_lt_length_of_mem ha

omit [DecidableEq α] in
/-- If each node of a finite set has an edge from a node of the set, there is a cycle. -/
theorem not_acyclic_of_left {nodes' : List α} (hne : nodes' ≠ []) (hin : ∀ x ∈ nodes', ∃ a ∈ nodes', Edge next nodes a x) :
    ¬Acyclic next nodes := by
  intro hacy
  let earlier : {x // x ∈ nodes'} → {x // x ∈ nodes'} → Prop := fun a x => Relation.TransGen (Edge next nodes) a.1 x.1
  have : Finite {x // x ∈ nodes'} := nodes'.finite_toSet
  have : Std.Irrefl earlier := ⟨fun a => hacy a.1⟩
  have hwf : WellFounded earlier := Finite.wellFounded_of_trans_of_irrefl earlier
  obtain ⟨x, hx⟩ := exists_mem_of_ne_nil nodes' hne
  obtain ⟨first, -, hfs⟩ := hwf.has_min .univ ⟨⟨x, hx⟩, trivial⟩
  obtain ⟨a, ha, heg⟩ := hin first.1 first.2
  exact hfs ⟨a, ha⟩ trivial (.single heg)

theorem Inv.mem_sorted_iff (h : Inv next nodes [] s) (hq : s.queue = []) {x : α} (hx : x ∈ nodes) :
    x ∈ s.sorted ↔ degree next nodes s.sorted x = 0 := by
  have hzr := h.zero x hx
  rwa [hq, append_nil, count_nil, Nat.zero_add] at hzr

/-- When the queue is empty, nothing is left of an acyclic graph, and something is left of any other. -/
theorem Inv.degree_zero_iff (hnx : ∀ a ∈ nodes, ∀ x ∈ next a, x ∈ nodes) (h : Inv next nodes [] s) (hq : s.queue = []) :
    (∀ x ∈ nodes, degree next nodes s.sorted x = 0) ↔ Acyclic next nodes := by
  have hzr : ∀ x ∈ nodes, x ∈ s.sorted ↔ degree next nodes s.sorted x = 0 := fun x hx => h.mem_sorted_iff hq hx
  refine ⟨fun hall => ?_, fun hacy => ?_⟩
  · have hlt : ∀ a x, Relation.TransGen (Edge next nodes) a x → s.sorted.idxOf a < s.sorted.idxOf x := by
      intro a x hpt
      have hst : ∀ b y, Edge next nodes b y → s.sorted.idxOf b < s.sorted.idxOf y := by
        intro b y heg
        have hy := hnx b heg.1 y heg.2
        exact h.idxOf_lt ((hzr y hy).mpr (hall y hy)) heg
      induction hpt with
      | single heg => exact hst _ _ heg
      | tail _ heg ih => exact ih.trans (hst _ _ heg)
    exact fun x hcyc => Nat.lt_irrefl _ (hlt x x hcyc)
  · by_contra hso
    obtain ⟨x, hx⟩ := not_forall.mp hso
    obtain ⟨hx, hpos⟩ := Classical.not_imp.mp hx
    refine @not_acyclic_of_left α next nodes (left nodes s.sorted) ?_ ?_ hacy
    · exact ne_nil_of_mem (mem_left.mpr ⟨hx, fun hs => hpos ((hzr x hx).mp hs)⟩)
    · intro y hy
      rw [mem_left] at hy
      have hcn : degree next nodes s.sorted y ≠ 0 := fun hz => hy.2 ((hzr y hy.1).mpr hz)
      obtain ⟨a, ha, hya⟩ := mem_flatMap.mp (count_pos_iff.mp (Nat.pos_of_ne_zero hcn))
      exact ⟨a, ha, (mem_left.mp ha).1, hya⟩

theorem Inv.perm (hns : nodes.Nodup) (h : Inv next nodes [] s) (hq : s.queue = [])
    (hall : ∀ x ∈ nodes, degree next nodes s.sorted x = 0) : s.sorted.Perm nodes := by
  refine (perm_ext_iff_of_nodup (nodup_append.mp h.nodup).1 hns).mpr fun x => ⟨fun hx => ?_, fun hx => ?_⟩
  · exact h.known x (mem_append_left _ hx)
  · exact (h.mem_sorted_iff hq hx).mpr (hall x hx)

end Rounds
end TouchHLE.Lib.Kahn
