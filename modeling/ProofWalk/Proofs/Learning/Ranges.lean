import Mathlib.Algebra.BigOperators.Group.List.Lemmas
import Mathlib.Algebra.GroupWithZero.Nat
import Mathlib.Data.List.Range
import ProofWalk.Learning.GroundedLine
import ProofWalk.Proofs.Results

/-!
# Edges of a learning graph

The edges of a learning graph are numbered in the order of their sources, so the ranges of its nodes
follow each other and leave no edge out. A graph that is read from a line leads to its own nodes only.

## Main definitions

* `LearningGraph.WellFormed` — ranges that follow each other, and targets in the graph

## Main results

* `LearningGraph.wellFormed_ofEdges` — the graph of a list of edges is well-formed
* `TrainingExample.wellFormed_of_parse?` — so is the graph of a line
-/

namespace ProofWalk

namespace LearningGraph

/-- The ranges of the nodes follow each other and hold all edges, which lead to nodes of the
graph. -/
structure WellFormed (g : LearningGraph) : Prop where
  ranges : g.nodes.flatMap g.edgesOf = List.range g.edgeCount
  targets : ∀ e < g.edgeCount, 1 ≤ g.target e ∧ g.target e ≤ g.nodeCount

theorem WellFormed.edge_lt {g : LearningGraph} (wellFormed : g.WellFormed) {u e : Nat}
    (node : u ∈ g.nodes) (member : e ∈ g.edgesOf u) : e < g.edgeCount := by
  rw [← List.mem_range, ← wellFormed.ranges]
  exact List.mem_flatMap.2 ⟨u, node, member⟩

theorem mem_nodes {g : LearningGraph} {u : Nat} : u ∈ g.nodes ↔ 1 ≤ u ∧ u ≤ g.nodeCount := by
  rw [nodes, List.mem_range'_1]
  omega

theorem WellFormed.target_mem_nodes {g : LearningGraph} (wellFormed : g.WellFormed) {u e : Nat}
    (node : u ∈ g.nodes) (member : e ∈ g.edgesOf u) : g.target e ∈ g.nodes :=
  mem_nodes.2 (wellFormed.targets e (wellFormed.edge_lt node member))

/-- Values that are listed node by node stand in the order of the edges. -/
theorem WellFormed.getElem?_flatMap {α : Type} {g : LearningGraph} (wellFormed : g.WellFormed)
    (f : Nat → Nat → α) {u e : Nat} (node : u ∈ g.nodes) (member : e ∈ g.edgesOf u) :
    (g.nodes.flatMap fun u => (g.edgesOf u).map (f u))[e]? = some (f u e) := by
  -- edges paired with their values
  set paired : List (Nat × α) := g.nodes.flatMap fun u => (g.edgesOf u).map fun e => (e, f u e)
    with isPaired
  have edges : paired.map (·.1) = List.range g.edgeCount := by
    rw [← wellFormed.ranges, isPaired, List.map_flatMap]
    refine List.flatMap_congr fun u _ => ?_
    rw [List.map_map]
    exact List.map_id _
  have values : paired.map (·.2) = g.nodes.flatMap fun u => (g.edgesOf u).map (f u) := by
    rw [isPaired, List.map_flatMap]
    exact List.flatMap_congr fun u _ => List.map_map
  have inPaired : (e, f u e) ∈ paired :=
    List.mem_flatMap.2 ⟨u, node, List.mem_map.2 ⟨e, member, rfl⟩⟩
  obtain ⟨i, inside, found⟩ := List.mem_iff_getElem.1 inPaired
  have isEdge : i = e := by
    have same := List.getElem_of_eq edges (by simpa using inside)
    rw [List.getElem_map, List.getElem_range, found] at same
    exact same.symm
  subst isEdge
  rw [← values, List.getElem?_map, List.getElem?_eq_getElem inside, found]
  rfl

/-- Values that are listed node by node behind one more stand at the numbers of the nodes. -/
theorem getElem?_cons_map_nodes {α : Type} {g : LearningGraph} (first : α) (f : Nat → α) {u : Nat}
    (node : u ∈ g.nodes) : (first :: g.nodes.map f)[u]? = some (f u) := by
  obtain ⟨positive, below⟩ := List.mem_range'_1.1 node
  have index : g.nodes[u - 1]? = some u := by
    rw [LearningGraph.nodes, List.getElem?_range' (by omega), Nat.one_mul,
      Nat.add_sub_cancel' positive]
  rw [List.getElem?_cons, if_neg (by omega), List.getElem?_map, index]
  rfl

/-! ### Counting -/

private theorem sum_modify_succ {xs : List Nat} {i : Nat} (inside : i < xs.length) :
    (xs.modify i (· + 1)).sum = xs.sum + 1 := by
  induction xs generalizing i with
  | nil => cases inside
  | cons x rest ih =>
    cases i with
    | zero =>
      rw [List.modify_zero_cons, List.sum_cons, List.sum_cons]
      omega
    | succ i =>
      rw [List.modify_succ_cons, List.sum_cons, List.sum_cons,
        ih (Nat.lt_of_succ_lt_succ inside), Nat.add_assoc]

/-- Every edge is counted once, and none at a source of zero. -/
private theorem countSources_spec {bound : Nat} {edges : List (Nat × LearningEdge)}
    (sources : ∀ e ∈ edges, 1 ≤ e.1 ∧ e.1 < bound) {counts : Array Nat} (size : counts.size = bound) :
    let counted := edges.foldl (fun counts e => counts.modify e.1 (· + 1)) counts
    counted.size = bound ∧ counted.toList.sum = counts.toList.sum + edges.length ∧
      counted[0]? = counts[0]? := by
  induction edges generalizing counts with
  | nil => exact ⟨size, rfl, rfl⟩
  | cons e rest ih =>
    obtain ⟨positive, below⟩ := sources e (by simp)
    obtain ⟨size', sum, first⟩ := ih (fun other member => sources other (by simp [member]))
      ((Array.size_modify ..).trans size : (counts.modify e.1 (· + 1)).size = bound)
    refine ⟨size', ?_, first.trans ?_⟩
    · rw [List.foldl_cons, sum, Array.toList_modify,
        sum_modify_succ (by rw [Array.length_toList]; omega), List.length_cons]
      omega
    · rw [Array.getElem?_modify, if_neg (by omega)]

/-- The running sums of a list on top of a number. -/
private def runningSums (total : Nat) (xs : List Nat) : List Nat :=
  (List.range xs.length).map fun k => total + (xs.take (k + 1)).sum

private theorem foldl_starts (xs : List Nat) (starts : Array Nat) (total : Nat) :
    (xs.foldl (fun (starts, total) n => (starts.push (total + n), total + n)) (starts, total)).1 =
      starts ++ (runningSums total xs).toArray := by
  induction xs generalizing starts total with
  | nil => simp [runningSums]
  | cons x rest ih =>
    have sums : runningSums total (x :: rest) = (total + x) :: runningSums (total + x) rest := by
      rw [runningSums, runningSums, List.length_cons, List.range_succ_eq_map, List.map_cons,
        List.map_map]
      refine congrArg₂ _ (by simp) (List.map_congr_left fun k _ => ?_)
      simp [Nat.add_assoc]
    rw [List.foldl_cons, ih, sums]
    simp

/-- Each start is the sum of all counts before it. -/
private theorem getElem?_startsOf {counts : Array Nat} {k : Nat} (inside : k ≤ counts.size) :
    (startsOf counts)[k]? = some (counts.toList.take k).sum := by
  rw [startsOf, ← Array.foldl_toList, foldl_starts, Array.getElem?_append]
  cases k with
  | zero => rfl
  | succ k =>
    have inside' : k < counts.toList.length := by
      rw [Array.length_toList]
      omega
    rw [if_neg (by simp), List.getElem?_toArray, runningSums, List.getElem?_map]
    have index : k + 1 - (#[0] : Array Nat).size = k := rfl
    rw [index, List.getElem?_range inside', Option.map_some, Nat.zero_add]

/-! ### Edges -/

/-- What is known of an edge. -/
def edge (g : LearningGraph) (e : Nat) : LearningEdge := { target := g.target e, labels := g.labels e }

/-- The graph of a list of edges has as many. -/
theorem edgeCount_ofEdges (nodeCount : Nat) (edges : List (Nat × LearningEdge)) (features : Array String)
    (dependencies : Nat) : (ofEdges nodeCount edges features dependencies).edgeCount = edges.length := by
  rw [edgeCount, ofEdges, List.size_toArray, List.length_map, List.length_map, List.length_mergeSort]

/-- The edges of a graph are those of the list in the order of their sources: the range of an edge among all
labels holds its own. -/
theorem edge_ofEdges {nodeCount : Nat} {edges : List (Nat × LearningEdge)} {features : Array String}
    {dependencies e : Nat} (bound : e < (edges.mergeSort fun a b => a.1 ≤ b.1).length) :
    (ofEdges nodeCount edges features dependencies).edge e =
      ((edges.mergeSort fun a b => a.1 ≤ b.1)[e]).2 := by
  set sorted := (edges.mergeSort fun a b => a.1 ≤ b.1).map (·.2) with isSorted
  have inside : e < sorted.length := by rwa [isSorted, List.length_map]
  have isEdge : sorted[e] = ((edges.mergeSort fun a b => a.1 ≤ b.1)[e]).2 := List.getElem_map ..
  rw [← isEdge]
  have target : (ofEdges nodeCount edges features dependencies).target e = sorted[e].target := by
    change ((sorted.map (·.target)).toArray[e]?).getD 0 = _
    rw [List.getElem?_toArray, List.getElem?_map, List.getElem?_eq_getElem inside]
    rfl
  have labels : (ofEdges nodeCount edges features dependencies).labels e = sorted[e].labels := by
    set blocks := sorted.map (·.labels) with isBlocks
    have isBlock : e < blocks.length := by rwa [isBlocks, List.length_map]
    have start (k : Nat) (bound : k ≤ blocks.length) :
        (ofEdges nodeCount edges features dependencies).labelStarts[k]? =
          some ((blocks.map List.length).take k).sum := by
      have lengths : sorted.map (·.labels.length) = blocks.map List.length := List.map_map.symm
      change (startsOf (sorted.map (·.labels.length)).toArray)[k]? = _
      rw [lengths, getElem?_startsOf (by rwa [List.size_toArray, List.length_map])]
    have all : (ofEdges nodeCount edges features dependencies).labelling.toList = blocks.flatten :=
      List.flatMap_def
    rw [LearningGraph.labels, start e (Nat.le_of_lt isBlock), start (e + 1) isBlock]
    change Array.toList (Array.extract _ _ _) = _
    rw [Array.toList_extract, all, List.extract_eq_take_drop, ← List.drop_take,
      List.drop_take_succ_flatten_eq_getElem blocks e isBlock]
    exact List.getElem_map ..
  rw [edge, target, labels]

/-! ### Ranges -/

/-- Ranges between increasing bounds follow each other. -/
private theorem flatMap_range' {bounds : Nat → Nat} (first n : Nat)
    (increasing : ∀ u, first ≤ u → u < first + n → bounds u ≤ bounds (u + 1)) :
    ((List.range' first n).flatMap fun u => List.range' (bounds u) (bounds (u + 1) - bounds u)) =
      List.range' (bounds first) (bounds (first + n) - bounds first) ∧
      bounds first ≤ bounds (first + n) := by
  induction n with
  | zero => simp
  | succ n ih =>
    obtain ⟨ranges, before⟩ := ih fun u left right => increasing u left (by omega)
    have last := increasing (first + n) (by omega) (by omega)
    refine ⟨?_, by rw [← Nat.add_assoc]; omega⟩
    rw [List.range'_concat, List.flatMap_append, ranges, Nat.one_mul, List.flatMap_singleton,
      ← Nat.add_assoc]
    have joined := @List.range'_append_1 (bounds first) (bounds (first + n) - bounds first)
      (bounds (first + n + 1) - bounds (first + n))
    rw [Nat.add_sub_cancel' before] at joined
    rw [joined]
    exact congrArg (List.range' (bounds first)) (by omega)

theorem edgesOf_eq {g : LearningGraph} {counts : Array Nat} (starts : g.starts = startsOf counts)
    {u : Nat} (positive : 1 ≤ u) (inside : u < counts.size) :
    g.edgesOf u = List.range' (counts.toList.take u).sum
      ((counts.toList.take (u + 1)).sum - (counts.toList.take u).sum) := by
  rw [edgesOf, if_neg (by omega), starts, getElem?_startsOf (Nat.le_of_lt inside),
    getElem?_startsOf inside]

/-- What is no node has no edges: there are no ranges in front of the first node and behind the last. -/
theorem edgesOf_outside {nodeCount : Nat} {edges : List (Nat × LearningEdge)} {features : Array String}
    {dependencies u : Nat} (outside : ¬(1 ≤ u ∧ u ≤ nodeCount)) :
    (ofEdges nodeCount edges features dependencies).edgesOf u = [] := by
  have counted (counts : Array Nat) :
      (edges.foldl (fun counts e => counts.modify e.1 (· + 1)) counts).size = counts.size := by
    induction edges generalizing counts with
    | nil => rfl
    | cons e rest ih => exact (ih _).trans (Array.size_modify ..)
  have sources : (countSources (nodeCount + 1) edges).toList.length = nodeCount + 1 := by
    rw [Array.length_toList, countSources, counted, Array.size_replicate]
  have size : (ofEdges nodeCount edges features dependencies).starts.size = nodeCount + 2 := by
    change (startsOf (countSources (nodeCount + 1) edges)).size = _
    rw [startsOf, ← Array.foldl_toList, foldl_starts, runningSums, sources]
    simp only [Array.size_append, List.size_toArray, List.length_map, List.length_range]
    exact Nat.add_comm 1 (nodeCount + 1)
  rw [edgesOf]
  split
  · rfl
  · have behind : (ofEdges nodeCount edges features dependencies).starts[u + 1]? = none :=
      Array.getElem?_eq_none (by omega)
    rw [behind]
    split
    · rename_i some
      cases some
    · rfl

/-- The graph of a list of edges between its nodes is well-formed. -/
theorem wellFormed_ofEdges {nodeCount : Nat} {edges : List (Nat × LearningEdge)}
    (inside : ∀ e ∈ edges, (1 ≤ e.1 ∧ e.1 ≤ nodeCount) ∧ 1 ≤ e.2.target ∧ e.2.target ≤ nodeCount)
    (features : Array String) (dependencies : Nat) :
    (ofEdges nodeCount edges features dependencies).WellFormed := by
  set g := ofEdges nodeCount edges features dependencies with isGraph
  have edgeCount : g.edgeCount = edges.length := edgeCount_ofEdges ..
  constructor
  case ranges =>
    set counts := countSources (nodeCount + 1) edges
    have sources : ∀ e ∈ edges, 1 ≤ e.1 ∧ e.1 < nodeCount + 1 := fun e member =>
      ⟨(inside e member).1.1, Nat.lt_succ_of_le (inside e member).1.2⟩
    obtain ⟨size, sum, first⟩ := countSources_spec sources
      (Array.size_replicate : (Array.replicate (nodeCount + 1) 0).size = _)
    change counts.size = _ at size
    change counts.toList.sum = _ at sum
    change counts[0]? = _ at first
    -- the edges of a node stand between the running sums of the counts
    have isRange : ∀ u ∈ g.nodes, g.edgesOf u = List.range' (counts.toList.take u).sum
        ((counts.toList.take (u + 1)).sum - (counts.toList.take u).sum) := by
      intro u node
      obtain ⟨positive, below⟩ := List.mem_range'_1.1 node
      have count : g.nodeCount = nodeCount := rfl
      exact edgesOf_eq rfl positive (by omega)
    have increasing : ∀ u, 1 ≤ u → u < 1 + nodeCount →
        (counts.toList.take u).sum ≤ (counts.toList.take (u + 1)).sum := by
      intro u _ _
      rw [List.take_add_one, List.sum_append]
      exact Nat.le_add_right ..
    have none : (counts.toList.take 1).sum = 0 := by
      rw [List.take_one, List.head?_eq_getElem?, Array.getElem?_toList, first,
        Array.getElem?_replicate, if_pos (Nat.succ_pos _)]
      rfl
    have all : (counts.toList.take (1 + nodeCount)).sum = edges.length := by
      rw [List.take_of_length_le (by rw [Array.length_toList]; omega), sum, Array.toList_replicate]
      simp
    have follow := (flatMap_range' 1 nodeCount increasing).1
    rw [none, all, Nat.sub_zero] at follow
    rw [List.flatMap_congr isRange, edgeCount, List.range_eq_range']
    exact follow
  case targets =>
    intro e bound
    have sorted : (edges.mergeSort fun a b => a.1 ≤ b.1).Perm edges := List.mergeSort_perm _ _
    rw [edgeCount, ← sorted.length_eq] at bound
    have target : g.target e = ((edges.mergeSort fun a b => a.1 ≤ b.1)[e]).2.target :=
      congrArg LearningEdge.target (edge_ofEdges bound)
    rw [target]
    exact (inside _ (sorted.mem_iff.1 (List.getElem_mem _))).2

/-! ### Reading -/

theorem inside_of_parseEdge? {nodes : Nat} {names : FeatureNames} {l l' : LocalFeatures}
    {field : List Char} {e : Nat × LearningEdge}
    (parsed : parseEdge? nodes names l field = .ok (e, l')) :
    (1 ≤ e.1 ∧ e.1 ≤ nodes) ∧ 1 ≤ e.2.target ∧ e.2.target ≤ nodes := by
  unfold parseEdge? at parsed
  simp only at parsed
  split at parsed
  · split at parsed
    · split at parsed
      · split at parsed
        · split at parsed
          · cases parsed
          · rename_i inside
            obtain ⟨labels, -, equal⟩ := Except.bind_eq_ok.1 parsed
            cases equal
            simp only [not_or, Nat.not_lt] at inside
            obtain ⟨source, sourceBelow, target, targetBelow⟩ := inside
            exact ⟨⟨Nat.pos_of_ne_zero source, sourceBelow⟩, Nat.pos_of_ne_zero target, targetBelow⟩
        · cases parsed
      · cases parsed
    · cases parsed
  · cases parsed

theorem inside_of_parseEdges? {nodes : Nat} {names : FeatureNames} {l l' : LocalFeatures}
    {fields : List (List Char)} {edges : List (Nat × LearningEdge)}
    (parsed : parseEdges? nodes names l fields = .ok (edges, l')) :
    ∀ e ∈ edges, (1 ≤ e.1 ∧ e.1 ≤ nodes) ∧ 1 ≤ e.2.target ∧ e.2.target ≤ nodes := by
  induction fields generalizing l edges with
  | nil =>
    cases parsed
    intro e member
    cases member
  | cons field rest ih =>
    obtain ⟨⟨first, l₁⟩, here, parsed⟩ := Except.bind_eq_ok.1 parsed
    obtain ⟨⟨others, l₂⟩, behind, equal⟩ := Except.bind_eq_ok.1 parsed
    cases equal
    intro e member
    obtain rfl | member := List.mem_cons.1 member
    · exact inside_of_parseEdge? here
    · exact ih behind e member

theorem wellFormed_of_parse? {fields : List (List Char)} {index : Option FeatureTable}
    {g : LearningGraph} (parsed : parse? fields index = .ok g) : g.WellFormed := by
  unfold parse? at parsed
  obtain ⟨nodes, -, parsed⟩ := Except.bind_eq_ok.1 parsed
  obtain ⟨edgeCount, -, parsed⟩ := Except.bind_eq_ok.1 parsed
  obtain ⟨dependencies, -, parsed⟩ := Except.bind_eq_ok.1 parsed
  obtain ⟨⟨edges, l⟩, read, parsed⟩ := Except.bind_eq_ok.1 parsed
  simp only at parsed
  split at parsed
  · cases parsed
  · cases parsed
    exact wellFormed_ofEdges (inside_of_parseEdges? read) _ _

end LearningGraph

/-- The graph of a grounded line has been read from fields, and walks start with all mass at its first node. -/
theorem TrainingExample.fields_of_parse? {line : String} {index : Option FeatureTable}
    {e : TrainingExample} (parsed : TrainingExample.parse? line index = .ok e) :
    (∃ fields, LearningGraph.parse? fields index = .ok e.graph) ∧ e.seed = [(1, 1)] := by
  unfold TrainingExample.parse? at parsed
  simp only at parsed
  split at parsed
  · rename_i e' read
    cases parsed
    unfold ofFields? at read
    split at read
    · obtain ⟨graph, parsedGraph, read⟩ := Except.bind_eq_ok.1 read
      obtain ⟨pos, -, read⟩ := Except.bind_eq_ok.1 read
      obtain ⟨neg, -, equal⟩ := Except.bind_eq_ok.1 read
      cases equal
      exact ⟨⟨_, parsedGraph⟩, rfl⟩
    · cases read
  · cases parsed

/-- The graph of a grounded line is well-formed, and walks start with all mass at its first node. -/
theorem TrainingExample.wellFormed_of_parse? {line : String} {index : Option FeatureTable}
    {e : TrainingExample} (parsed : TrainingExample.parse? line index = .ok e) :
    e.graph.WellFormed ∧ e.seed = [(1, 1)] := by
  obtain ⟨⟨fields, parsedGraph⟩, start⟩ := TrainingExample.fields_of_parse? parsed
  exact ⟨LearningGraph.wellFormed_of_parse? parsedGraph, start⟩

end ProofWalk
