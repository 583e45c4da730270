import ProofWalk.Proofs.Exact
import ProofWalk.Proofs.Grouping
import ProofWalk.Proofs.Learning.Probabilities

/-!
# The edges of a source

The graph of a list of edges gives every node the edges of its source, in the order in which they were
listed, in whatever order the sources come.

## Main results

* `LearningGraph.map_edge_edgesOf` — the edges of a node
* `LearningGraph.linksOf_ofEdges` — its links with their weights
-/

namespace ProofWalk.LearningGraph

/-- A source is counted as often as an edge has it. -/
theorem getElem?_countSources (bound : Nat) (edges : List (Nat × LearningEdge)) {u : Nat}
    (inside : u < bound) :
    (countSources bound edges)[u]? = some (edges.countP fun e => e.1 == u) := by
  have counted : ∀ (counts : Array Nat) (n : Nat), counts[u]? = some n →
      (edges.foldl (fun counts e => counts.modify e.1 (· + 1)) counts)[u]? =
        some (n + edges.countP fun e => e.1 == u) := by
    induction edges with
    | nil => exact fun counts n start => start
    | cons e rest ih =>
      intro counts n start
      rw [List.foldl_cons, List.countP_cons]
      by_cases here : e.1 = u
      · have next : (counts.modify e.1 (· + 1))[u]? = some (n + 1) := by
          rw [Array.getElem?_modify, if_pos here, start]
          rfl
        rw [ih _ _ next, if_pos (beq_iff_eq.2 here)]
        congr 1
        omega
      · have next : (counts.modify e.1 (· + 1))[u]? = some n := by
          rw [Array.getElem?_modify, if_neg here, start]
        rw [ih _ _ next, if_neg (by rwa [beq_iff_eq])]
        rfl
  have start : (Array.replicate bound 0)[u]? = some 0 := by
    rw [Array.getElem?_replicate, if_pos inside]
  rw [countSources, counted _ 0 start, Nat.zero_add]

/-- The edges with smaller sources are as many as all counts in front. -/
theorem sum_take_countSources (bound : Nat) (edges : List (Nat × LearningEdge)) {u : Nat}
    (inside : u ≤ bound) :
    ((countSources bound edges).toList.take u).sum = edges.countP fun e => decide (e.1 < u) := by
  induction u with
  | zero => simp
  | succ u ih =>
    have counted := getElem?_countSources bound edges (Nat.lt_of_succ_le inside)
    rw [List.take_add_one, List.sum_append, ih (Nat.le_of_succ_le inside), Array.getElem?_toList, counted]
    -- a source below the next number is below this one or is this one
    clear ih counted
    induction edges with
    | nil => rfl
    | cons e rest ih =>
      simp only [List.countP_cons, Option.toList_some, List.sum_cons, List.sum_nil, beq_iff_eq,
        decide_eq_true_eq] at ih ⊢
      split <;> split <;> split <;> omega

/-- A range covers what stands between a front and a back. -/
theorem map_getElem?_range' {α : Type} {xs front middle back : List α}
    (split : xs = front ++ middle ++ back) :
    (List.range' front.length middle.length).map (fun i => xs[i]?) = middle.map some := by
  subst split
  refine List.ext_getElem? fun i => ?_
  rw [List.getElem?_map, List.getElem?_map]
  by_cases within : i < middle.length
  · rw [List.getElem?_range' within, Option.map_some, Nat.one_mul, List.append_assoc,
      List.getElem?_append_right (Nat.le_add_right ..), Nat.add_sub_cancel_left,
      List.getElem?_append_left within, List.getElem?_eq_getElem within]
    rfl
  · rw [List.getElem?_eq_none (by simpa using Nat.le_of_not_lt within),
      List.getElem?_eq_none (Nat.le_of_not_lt within)]
    rfl

/-- The edges of a node are those of its source, in the order in which they were given. -/
theorem map_edge_edgesOf {nodeCount : Nat} {edges : List (Nat × LearningEdge)} {features : Array String}
    {dependencies u : Nat} (positive : 1 ≤ u) (inside : u ≤ nodeCount) :
    ((ofEdges nodeCount edges features dependencies).edgesOf u).map
        (ofEdges nodeCount edges features dependencies).edge =
      (edges.filter fun e => e.1 == u).map (·.2) := by
  set sorted := edges.mergeSort fun a b => a.1 ≤ b.1 with isSorted
  have perm : sorted.Perm edges := List.mergeSort_perm _ _
  have stable : sorted.filter (fun e => e.1 == u) = edges.filter fun e => e.1 == u :=
    filter_mergeSort_key Prod.fst edges u
  have split : sorted = sorted.filter (fun e => decide (e.1 < u)) ++ sorted.filter (fun e => e.1 == u) ++
      sorted.filter fun e => decide (u < e.1) := filter_of_sorted (pairwise_mergeSort_key Prod.fst edges) u
  have before : (edges.countP fun e => decide (e.1 < u)) =
      (sorted.filter fun e => decide (e.1 < u)).length := by
    rw [← List.countP_eq_length_filter, perm.countP_eq]
  have here : (edges.countP fun e => e.1 == u) = (sorted.filter fun e => e.1 == u).length := by
    rw [← List.countP_eq_length_filter, perm.countP_eq]
  have bound : u < nodeCount + 1 := Nat.lt_succ_of_le inside
  have counted := getElem?_countSources (nodeCount + 1) edges bound
  have size : u < (countSources (nodeCount + 1) edges).size := by
    by_contra outside
    rw [Array.getElem?_eq_none (Nat.le_of_not_lt outside)] at counted
    cases counted
  have range : (ofEdges nodeCount edges features dependencies).edgesOf u =
      List.range' (sorted.filter fun e => decide (e.1 < u)).length
        (sorted.filter fun e => e.1 == u).length := by
    rw [edgesOf_eq rfl positive size, List.take_add_one, List.sum_append, Array.getElem?_toList, counted,
      sum_take_countSources _ _ (Nat.le_of_lt bound), before, here]
    rw [Option.toList_some, List.sum_singleton, Nat.add_sub_cancel_left]
  -- the edge of a number in the range is the one that stands there
  have edge : ∀ k ∈ (ofEdges nodeCount edges features dependencies).edgesOf u,
      some ((ofEdges nodeCount edges features dependencies).edge k) = (sorted[k]?).map (·.2) := by
    intro k member
    rw [range, List.mem_range'_1] at member
    have length := congrArg List.length split
    rw [List.length_append, List.length_append] at length
    have bound : k < sorted.length := by omega
    rw [List.getElem?_eq_getElem bound, edge_ofEdges bound]
    rfl
  have middle := congrArg (List.map (Option.map (·.2))) (map_getElem?_range' split)
  rw [List.map_map, List.map_map] at middle
  refine List.map_injective_iff.2 (Option.some_injective _) ?_
  rw [List.map_map, List.map_map]
  calc _ = ((ofEdges nodeCount edges features dependencies).edgesOf u).map
          fun k => (sorted[k]?).map (·.2) := List.map_congr_left edge
    _ = _ := by
      rw [range, ← stable]
      exact middle

/-- The links of a node are the edges of its source with their weights. -/
theorem linksOf_ofEdges (squash : Squash) (p : Parameters ℝ) {nodeCount : Nat}
    {edges : List (Nat × LearningEdge)} {features : Array String} {dependencies u : Nat}
    (positive : 1 ≤ u) (inside : u ≤ nodeCount) :
    (ofEdges nodeCount edges features dependencies).linksOf squash p u =
      (edges.filter fun e => e.1 == u).map fun e => (e.2.target,
        (Transitions.weigh squash (features.map fun name => p.getD name squash.default)
          e.2.labels).weight) := by
  have edges := congrArg (List.map fun edge : LearningEdge => (edge.target,
    (Transitions.weigh squash (features.map fun name => p.getD name squash.default) edge.labels).weight))
    (@map_edge_edgesOf nodeCount edges features dependencies u positive inside)
  rw [List.map_map, List.map_map] at edges
  exact edges

end ProofWalk.LearningGraph
