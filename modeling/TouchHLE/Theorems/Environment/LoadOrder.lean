import TouchHLE.Environment.LoadOrder
import TouchHLE.Lib.Outcome

/-! `generateBinaryLoadOrder` sorts the binaries whenever that can be done: it fails exactly on a dependency cycle. -/

namespace TouchHLE.LoadOrder
open Lib.Kahn Lib List Function Maps
variable {i : Nat} {name : Name} (graph : List BinaryDependencyNode)

def DependsOn (i j : Nat) : Prop :=
  ∃ node dylib path, graph[i]? = some node ∧ path ∈ node.dependencies ∧ graph[j]? = some dylib ∧ stripPath path = dylib.name

theorem DependsOn.lt {graph} {j : Nat} (h : DependsOn graph i j) :
    i < graph.length ∧ j < graph.length := by
  obtain ⟨node, dylib, path, hi, -, hj, -⟩ := h
  exact ⟨(List.getElem?_eq_some_iff.mp hi).1, (List.getElem?_eq_some_iff.mp hj).1⟩

section Names
variable {graph : List BinaryDependencyNode}

theorem enter_of_notMem (hnot : ∀ node ∈ graph, node.name ≠ name) (k : Nat) (map : Name → Option Nat) :
    ((graph.zipIdx k).foldl (fun map e => update map e.1.name (some e.2)) map : Name → Option Nat) name =
      map name := by
  induction graph generalizing k map with
  | nil => rfl
  | cons node graph ih =>
    rw [zipIdx_cons, foldl_cons, ih fun other hoh => hnot other (mem_cons_of_mem node hoh)]
    exact update_of_ne (Ne.symm (hnot node mem_cons_self)) _ _

theorem enter_of_getElem? (hna : (graph.map (·.name)).Nodup) {node}
    (hi : graph[i]? = some node) (k : Nat) (map : Name → Option Nat) :
    ((graph.zipIdx k).foldl (fun map e => update map e.1.name (some e.2)) map : Name → Option Nat) node.name =
      some (k + i) := by
  induction graph generalizing i k map with
  | nil => cases hi
  | cons head graph ih =>
    obtain ⟨hnot, hna⟩ := nodup_cons.mp hna
    rw [zipIdx_cons, foldl_cons]
    cases i with
    | zero =>
      cases hi
      have hoh := fun other hoh heq =>
        hnot (mem_map.mpr ⟨other, hoh, heq⟩)
      rw [enter_of_notMem hoh]
      exact update_self _ _ _
    | succ i =>
      rw [ih hna hi, Nat.add_assoc, Nat.add_comm 1 i]

theorem nodeToIndex_eq_some (hna : (graph.map (·.name)).Nodup) :
    nodeToIndex graph name = some i ↔ ∃ node, graph[i]? = some node ∧ node.name = name := by
  refine ⟨fun h => ?_, ?_⟩
  · by_cases hmem : ∃ node ∈ graph, node.name = name
    · obtain ⟨node, hnod, rfl⟩ := hmem
      obtain ⟨j, hj⟩ := getElem?_of_mem hnod
      rw [nodeToIndex, enter_of_getElem? hna hj, Nat.zero_add] at h
      cases h
      exact ⟨node, hj, rfl⟩
    · rw [nodeToIndex, enter_of_notMem fun node hnod heq => hmem ⟨node, hnod, heq⟩] at h
      cases h
  · rintro ⟨node, hi, rfl⟩
    rw [nodeToIndex, enter_of_getElem? hna hi, Nat.zero_add]

end Names

/-! ### The maps of the dependencies -/

theorem count_flatMap_update {nodes : List Nat} (hns : nodes.Nodup) (next : Nat → List Nat) {a : Nat} (ha : a ∈ nodes)
    (x y : Nat) :
    (nodes.flatMap (update next a (next a ++ [x]))).count y = (nodes.flatMap next).count y + [x].count y := by
  induction nodes with
  | nil => cases ha
  | cons b nodes ih =>
    obtain ⟨hb, hns⟩ := nodup_cons.mp hns
    rw [flatMap_cons, flatMap_cons, count_append, count_append]
    by_cases hab : b = a
    · subst hab
      have hrs : nodes.flatMap (update next b (next b ++ [x])) = nodes.flatMap next :=
        flatMap_congr fun c hc => update_of_ne (ne_of_mem_of_not_mem hc hb) _ _
      rw [hrs, update_self, count_append]
      omega
    · rw [update_of_ne hab, ih hns ((mem_cons.mp ha).resolve_left (Ne.symm hab))]
      omega

/-- In-degrees count the edges to each of `nodes`, and all edges are between `nodes`. -/
structure Counted (nodes : List Nat) (maps : Maps) : Prop where
  inDegrees : ∀ x ∈ nodes, maps.inDegrees x = some ((nodes.flatMap maps.dependents).count x : Int)
  known : ∀ a x, x ∈ maps.dependents a → x ∈ nodes

structure Added (nodes : List Nat) (new : Nat → Nat → Prop) (before after : Maps) : Prop where
  counted : Counted nodes after
  mem : ∀ a x, x ∈ after.dependents a ↔ x ∈ before.dependents a ∨ new a x

section Maps
variable {names : Name → Option Nat} {nodes : List Nat} {maps : Maps}

section
variable (hns : nodes.Nodup) (hna : ∀ name i, names name = some i → i ∈ nodes)
include hns hna

theorem addDependency_added {binIndex : Nat} (hbin : binIndex ∈ nodes) (h : Counted nodes maps) (path : Name) :
    Added nodes (fun a x => x = binIndex ∧ names (stripPath path) = some a) maps
      (maps.addDependency names binIndex path) := by
  rw [addDependency]
  cases hpt : names (stripPath path) with
  | none => exact ⟨h, fun a x => by simp⟩
  | some dylibIndex =>
    have hmem : ∀ a x, x ∈ update maps.dependents dylibIndex (maps.dependents dylibIndex ++ [binIndex]) a ↔
        x ∈ maps.dependents a ∨ x = binIndex ∧ some dylibIndex = some a := by
      intro a x
      by_cases ha : a = dylibIndex
      · subst ha
        simp
      · simp [ha, Ne.symm ha]
    refine ⟨⟨fun x hx => ?_, fun a x hx => ?_⟩, hmem⟩
    · dsimp only
      rw [count_flatMap_update hns _ (hna _ _ hpt)]
      by_cases hxb : x = binIndex
      · subst hxb
        rw [update_self, h.inDegrees x hx]
        simp
      · rw [update_of_ne hxb, h.inDegrees x hx]
        simp [Ne.symm hxb]
    · rcases (hmem a x).mp hx with hx | ⟨rfl, -⟩
      · exact h.known a x hx
      · exact hbin

theorem foldl_addDependency_added
    {binIndex : Nat} (hbin : binIndex ∈ nodes) (h : Counted nodes maps) (paths : List Name) :
    Added nodes (fun a x => x = binIndex ∧ ∃ path ∈ paths, names (stripPath path) = some a) maps
      (paths.foldl (.addDependency names binIndex) maps) := by
  induction paths generalizing maps with
  | nil => exact ⟨h, fun a x => by simp⟩
  | cons path paths ih =>
    have hone := addDependency_added hns hna hbin h path
    have hrs := ih hone.counted
    refine ⟨hrs.counted, fun a x => ?_⟩
    rw [foldl_cons, hrs.mem, hone.mem, or_assoc, ← and_or_left]
    simp

/-- Every node has an index, so the loop over the nodes ends, and all their dependencies are entered. -/
theorem foldlM_addNode_added
    (h : Counted nodes maps) (graph : List BinaryDependencyNode) (hgrp : ∀ node ∈ graph, (names node.name).isSome) :
    ∃ maps', graph.foldlM (addNode names) maps = .ok maps' ∧
      Added nodes (fun a x => ∃ node ∈ graph, names node.name = some x ∧
        ∃ path ∈ node.dependencies, names (stripPath path) = some a) maps maps' := by
  induction graph generalizing maps with
  | nil => exact ⟨maps, rfl, h, fun a x => by simp⟩
  | cons node graph ih =>
    obtain ⟨binIndex, hbin⟩ := Option.isSome_iff_exists.mp (hgrp node mem_cons_self)
    have hone := foldl_addDependency_added hns hna (hna _ _ hbin) h node.dependencies
    obtain ⟨maps', hrs, hade⟩ := ih hone.counted fun other hoh => hgrp other (mem_cons_of_mem node hoh)
    refine ⟨maps', ?_, hade.counted, fun a x => ?_⟩
    · rw [foldlM_cons, addNode, hbin]
      exact hrs
    · rw [hade.mem, hone.mem, or_assoc]
      simp [hbin, eq_comm]

end

end Maps

section Graph
variable {graph : List BinaryDependencyNode} (hna : (graph.map (·.name)).Nodup)
include hna

theorem nodeToIndex_mem_range (h : nodeToIndex graph name = some i) : i ∈ List.range graph.length := by
  obtain ⟨node, hi, -⟩ := (nodeToIndex_eq_some hna).mp h
  exact List.mem_range.mpr (List.getElem?_eq_some_iff.mp hi).1

theorem nodeToIndex_self {node} (hi : graph[i]? = some node) :
    nodeToIndex graph node.name = some i := (nodeToIndex_eq_some hna).mpr ⟨node, hi, rfl⟩

theorem new_counted : Counted (List.range graph.length) (new graph) := by
  refine ⟨fun x hx => ?_, fun a x hx => by cases hx⟩
  have hlt := mem_range.mp hx
  have hany : graph.any (fun node => nodeToIndex graph node.name = some x) = true :=
    any_eq_true.mpr ⟨graph[x], getElem_mem hlt, decide_eq_true (nodeToIndex_self hna (getElem?_eq_getElem hlt))⟩
  have hnn : (List.range graph.length).flatMap (new graph).dependents = [] := flatMap_eq_nil_iff.mpr fun _ _ => rfl
  rw [hnn]
  exact if_pos hany

theorem buildMaps_eq_ok : ∃ maps, buildMaps graph = .ok maps ∧ Counted (List.range graph.length) maps ∧
    ∀ a x, x ∈ maps.dependents a ↔ DependsOn graph x a := by
  have hso : ∀ node ∈ graph, (nodeToIndex graph node.name).isSome := by
    intro node hnod
    obtain ⟨i, hi⟩ := getElem?_of_mem hnod
    rw [nodeToIndex_self hna hi]
    rfl
  obtain ⟨maps, hmps, hade⟩ := @foldlM_addNode_added (nodeToIndex graph) _ _ nodup_range
    (fun _ _ hnm => nodeToIndex_mem_range hna hnm) (new_counted hna) graph hso
  refine ⟨maps, hmps, hade.counted, fun a x => ?_⟩
  have hnew : x ∉ (new graph).dependents a := not_mem_nil
  rw [hade.mem, or_iff_right hnew]
  constructor
  · rintro ⟨node, hnod, hx, path, hpt, ha⟩
    obtain ⟨i, hi⟩ := getElem?_of_mem hnod
    rw [nodeToIndex_self hna hi] at hx
    cases hx
    obtain ⟨dylib, ha, hnm⟩ := (nodeToIndex_eq_some hna).mp ha
    exact ⟨node, dylib, path, hi, hpt, ha, hnm.symm⟩
  · rintro ⟨node, dylib, path, hx, hpt, ha, hnm⟩
    exact ⟨node, mem_of_getElem? hx, nodeToIndex_self hna hx, path, hpt, hnm ▸ nodeToIndex_self hna ha⟩

end Graph

section Loop
variable {nodes order : List Nat} {maps : Maps}

theorem left_nil (nodes : List Nat) : left nodes [] = nodes := by
  simp [left]

theorem start_inv (h : Counted nodes maps) (hod : order.Perm nodes) (hns : nodes.Nodup) :
    Inv maps.dependents nodes [] (start order maps) := by
  have hdeg : ∀ x ∈ nodes, maps.inDegrees x =
      some ((([] : List Nat).count x + degree maps.dependents nodes [] x : Nat) : Int) := by
    intro x hx
    rw [degree, left_nil, h.inDegrees x hx, count_nil, Nat.zero_add]
  refine ⟨?_, ?_, hdeg, ?_, ?_⟩
  · exact ((hod.nodup_iff).mpr hns).filter _
  · intro x hx
    exact hod.subset (mem_of_mem_filter hx)
  · intro x hx
    simp [start, hod.mem_iff, hx, hdeg x hx]
  · intro before x rest hsp
    cases before <;> cases hsp

def NoUnderflow (order : List Nat) (maps : Maps) : Prop :=
  ∀ n node queue seen dependant unseen, (rounds order maps n).queue = node :: queue →
    maps.dependents node = seen ++ dependant :: unseen →
    ∃ d, (seen.foldl Sorting.see
      { rounds order maps n with queue, sorted := (rounds order maps n).sorted ++ [node] }).inDegrees dependant =
        some ((d + 1 : Nat) : Int)

end Loop

def restrictedNode (node : BinaryDependencyNode) : BinaryDependencyNode where
  name := node.name
  dependencies := node.dependencies.filter fun path => graph.any fun other => other.name = stripPath path

/-- The graph without the dependencies on names that no binary of it has. -/
def restricted : List BinaryDependencyNode := graph.map (restrictedNode graph)

section Result
variable {graph : List BinaryDependencyNode} {order : List Nat}

theorem nodeToIndex_restricted : nodeToIndex (restricted graph) = nodeToIndex graph := by
  rw [nodeToIndex, restricted, zipIdx_map, foldl_map]
  rfl

theorem addNode_restricted (maps : Maps) (node : BinaryDependencyNode) :
    maps.addNode (nodeToIndex graph) (restrictedNode graph node) = maps.addNode (nodeToIndex graph) node := by
  have hfld : ∀ binIndex, (restrictedNode graph node).dependencies.foldl (.addDependency (nodeToIndex graph) binIndex)
      maps = node.dependencies.foldl (.addDependency (nodeToIndex graph) binIndex) maps := by
    intro binIndex
    rw [restrictedNode, foldl_filter]
    refine foldl_ext _ _ _ fun maps path _ => ?_
    split
    · rfl
    · rename_i hany
      have hnot := fun other hoh heq =>
        hany (any_eq_true.mpr ⟨other, hoh, decide_eq_true heq⟩)
      have hnn : nodeToIndex graph (stripPath path) = none := enter_of_notMem hnot _ _
      rw [addDependency, hnn]
  simp only [addNode, hfld]
  rfl

theorem buildMaps_restricted : buildMaps (restricted graph) = buildMaps graph := by
  have hnew : .new (restricted graph) = new graph := by
    rw [new, nodeToIndex_restricted]
    simp only [restricted, any_map]
    rfl
  rw [buildMaps, hnew, nodeToIndex_restricted, buildMaps, restricted, foldlM_map]
  exact congrArg (fun f => graph.foldlM f (.new graph)) (funext fun maps => funext fun node => addNode_restricted maps node)

variable {maps : Maps}

/-- The edges of the maps are the dependencies, turned around. -/
theorem edges_acyclic_iff (hmem : ∀ a x, x ∈ maps.dependents a ↔ DependsOn graph x a) :
    Acyclic maps.dependents (.range graph.length) ↔ ∀ i, ¬Relation.TransGen (DependsOn graph) i i := by
  have heg : Edge maps.dependents (.range graph.length) = Function.swap (DependsOn graph) := by
    funext a x
    exact propext ⟨fun h => (hmem a x).mp h.2, fun h => ⟨mem_range.mpr h.lt.2, (hmem a x).mpr h⟩⟩
  rw [Acyclic, heg]
  exact forall_congr' fun i => not_congr Relation.transGen_swap

section
variable (hmps : buildMaps graph = .ok maps) (hqu : (rounds order maps graph.length).queue = [])
include hmps hqu

theorem generateBinaryLoadOrder_ok
    (hnn : ∀ index ∈ order, ((rounds order maps graph.length).inDegrees index).any (0 < ·) = false) :
    generateBinaryLoadOrder graph order = .ok (rounds order maps graph.length).sorted := by
  have hfn : (order.find? fun index => ((rounds order maps graph.length).inDegrees index).any (0 < ·)) = none :=
    find?_eq_none.mpr fun index hid => by simp [hnn index hid]
  simp [generateBinaryLoadOrder, hmps, hqu, hfn]

theorem generateBinaryLoadOrder_cycle (hod : ∀ index ∈ order, index < graph.length) {index : Nat}
    (hid : index ∈ order) (hpos : ((rounds order maps graph.length).inDegrees index).any (0 < ·) = true) :
    ∃ node ∈ graph, generateBinaryLoadOrder graph order = .error (.cycle node.name) := by
  have hso : (order.find? fun index => ((rounds order maps graph.length).inDegrees index).any (0 < ·)).isSome = true :=
    find?_isSome.mpr ⟨index, hid, hpos⟩
  obtain ⟨found, hfd⟩ := Option.isSome_iff_exists.mp hso
  have hlt := hod found (mem_of_find?_eq_some hfd)
  refine ⟨graph[found], getElem_mem hlt, ?_⟩
  simp only [generateBinaryLoadOrder, hmps, ok_bind, hqu, ne_eq, not_true_eq_false, if_false, hfd, getElem?_eq_getElem hlt]

end

theorem generateBinaryLoadOrder_restricted :
    generateBinaryLoadOrder (restricted graph) order = generateBinaryLoadOrder graph order := by
  have hln : (restricted graph).length = graph.length := length_map _
  simp only [generateBinaryLoadOrder, buildMaps_restricted, hln]
  refine bind_congr fun maps => ite_congr rfl (fun _ => rfl) fun _ => ?_
  cases order.find? fun index => ((rounds order maps graph.length).inDegrees index).any (0 < ·) with
  | none => rfl
  | some index =>
    simp only [restricted, getElem?_map]
    cases graph[index]? <;> rfl

structure Sorts (graph : List BinaryDependencyNode) (order : List Nat) : Prop where
  ok_iff : (∃ sorted, generateBinaryLoadOrder graph order = .ok sorted) ↔ ∀ i, ¬Relation.TransGen (DependsOn graph) i i
  error : ∀ e, generateBinaryLoadOrder graph order = .error e → ∃ node ∈ graph, e = .cycle node.name
  perm : ∀ sorted, generateBinaryLoadOrder graph order = .ok sorted → sorted.Perm (.range graph.length)
  after : ∀ sorted, generateBinaryLoadOrder graph order = .ok sorted →
    ∀ i j, DependsOn graph i j → sorted.idxOf j < sorted.idxOf i
  ignored : generateBinaryLoadOrder (restricted graph) order = generateBinaryLoadOrder graph order
  noUnderflow : ∀ maps, buildMaps graph = .ok maps → NoUnderflow order maps

structure Ended (graph : List BinaryDependencyNode) (order : List Nat) (maps : Maps) : Prop where
  built : buildMaps graph = .ok maps
  mem : ∀ a x, x ∈ maps.dependents a ↔ DependsOn graph x a
  inv : Inv maps.dependents (.range graph.length) [] (rounds order maps graph.length)
  queue : (rounds order maps graph.length).queue = []
  noUnderflow : NoUnderflow order maps

theorem exists_ended (hna : (graph.map (·.name)).Nodup) (hod : order.Perm (List.range graph.length)) :
    ∃ maps, Ended graph order maps := by
  obtain ⟨maps, hmps, hcou, hmem⟩ := buildMaps_eq_ok hna
  have hns : (List.range graph.length).Nodup := nodup_range
  have hnx : ∀ a ∈ List.range graph.length, ∀ x ∈ maps.dependents a, x ∈ List.range graph.length :=
    fun a _ x hx => hcou.known a x hx
  have hinv := start_inv hcou hod hns
  have hqu := hinv.queue_eq_nil hns hnx
  rw [length_range] at hqu
  refine ⟨maps, hmps, hmem, hinv.rounds hns hnx graph.length, hqu, ?_⟩
  intro n node queue seen dependant unseen hq hsp
  exact (hinv.rounds hns hnx n).see_pos hns hnx hq hsp

/-- The edges from what is not sorted, for each binary: what the in-degrees are after the loop. -/
def remaining (graph : List BinaryDependencyNode) (order : List Nat) (maps : Maps) (x : Nat) : Nat :=
  degree maps.dependents (.range graph.length) (rounds order maps graph.length).sorted x

theorem Ended.acyclic_iff (h : Ended graph order maps) :
    (∀ x < graph.length, remaining graph order maps x = 0) ↔ ∀ i, ¬Relation.TransGen (DependsOn graph) i i := by
  have hnx : ∀ a ∈ List.range graph.length, ∀ x ∈ maps.dependents a, x ∈ List.range graph.length :=
    fun a _ x hx => mem_range.mpr ((h.mem a x).mp hx).lt.1
  rw [← edges_acyclic_iff h.mem, ← h.inv.degree_zero_iff hnx h.queue]
  exact forall_congr' fun x => imp_congr_left mem_range.symm

/-- The test that decides between the two results. -/
theorem Ended.any_pos (h : Ended graph order maps) {index : Nat} (hid : index < graph.length) :
    ((rounds order maps graph.length).inDegrees index).any (0 < ·) = decide (remaining graph order maps index ≠ 0) := by
  rw [h.inv.inDegrees index (mem_range.mpr hid), count_nil, Nat.zero_add]
  exact decide_eq_decide.mpr (Int.natCast_pos.trans Nat.pos_iff_ne_zero)

theorem Ended.sorted (h : Ended graph order maps) (hall : ∀ x < graph.length, remaining graph order maps x = 0) :
    (rounds order maps graph.length).sorted.Perm (.range graph.length) ∧ ∀ i j, DependsOn graph i j →
        (rounds order maps graph.length).sorted.idxOf j < (rounds order maps graph.length).sorted.idxOf i := by
  have hpr := h.inv.perm nodup_range h.queue fun x hx => hall x (mem_range.mp hx)
  refine ⟨hpr, fun i j hij => ?_⟩
  have hi := hpr.symm.subset (mem_range.mpr hij.lt.1)
  exact h.inv.idxOf_lt hi ⟨mem_range.mpr hij.lt.2, (h.mem j i).mpr hij⟩

theorem sorts_of_names_nodup (hnames : (graph.map (·.name)).Nodup) (horder : order.Perm (List.range graph.length)) :
    Sorts graph order := by
  obtain ⟨maps, hended⟩ := exists_ended hnames horder
  have hlt : ∀ index ∈ order, index < graph.length := fun index hindex => mem_range.mp (horder.subset hindex)
  have hunderflow : ∀ m, buildMaps graph = .ok m → NoUnderflow order m := by
    intro m hm
    cases hended.built.symm.trans hm
    exact hended.noUnderflow
  by_cases hall : ∀ x < graph.length, remaining graph order maps x = 0
  · have hok := generateBinaryLoadOrder_ok hended.built hended.queue fun index hindex => by
      rw [hended.any_pos (hlt index hindex), hall index (hlt index hindex)]
      rfl
    refine ⟨⟨fun _ => hended.acyclic_iff.mp hall, fun _ => ⟨_, hok⟩⟩, ?_, ?_, ?_, generateBinaryLoadOrder_restricted,
      hunderflow⟩
    · intro e he
      cases hok.symm.trans he
    · intro sorted hsorted
      cases hok.symm.trans hsorted
      exact (hended.sorted hall).1
    · intro sorted hsorted
      cases hok.symm.trans hsorted
      exact (hended.sorted hall).2
  · obtain ⟨index, hindex⟩ := not_forall.mp hall
    obtain ⟨hindex, hpos⟩ := Classical.not_imp.mp hindex
    have hmem := horder.symm.subset (mem_range.mpr hindex)
    obtain ⟨node, hnode, herror⟩ := generateBinaryLoadOrder_cycle hended.built hended.queue hlt hmem
      ((hended.any_pos hindex).trans (decide_eq_true hpos))
    have hno : ∀ sorted, generateBinaryLoadOrder graph order ≠ .ok sorted := by
      intro sorted hsorted
      cases herror.symm.trans hsorted
    refine ⟨⟨?_, fun hacyclic => (hall (hended.acyclic_iff.mpr hacyclic)).elim⟩, ?_, ?_, ?_,
      generateBinaryLoadOrder_restricted, hunderflow⟩
    · rintro ⟨sorted, hsorted⟩
      exact (hno sorted hsorted).elim
    · intro e he
      cases herror.symm.trans he
      exact ⟨node, hnode, rfl⟩
    · exact fun sorted hsorted => (hno sorted hsorted).elim
    · exact fun sorted hsorted => (hno sorted hsorted).elim

def twoDylibs : List BinaryDependencyNode :=
  [⟨"A".toList, ["/usr/lib/B".toList, "B".toList, "/usr/lib/libSystem.B.dylib".toList]⟩, ⟨"B".toList, []⟩]

theorem sorts_of_names_nodup_twoDylibs : generateBinaryLoadOrder twoDylibs [0, 1] = .ok [1, 0] ∧ Sorts twoDylibs [0, 1] :=
  ⟨by decide, sorts_of_names_nodup (by decide) (.refl _)⟩

end Result

end TouchHLE.LoadOrder
