import ProofWalk.Proofs.Exact
import Mathlib.Algebra.Order.BigOperators.Group.List
import ProofWalk.Learning.Transitions
import ProofWalk.Proofs.Learning.Ranges

/-!
# Probabilities of a learning graph

The probability of an edge is its weight over the total weight of its node, and the nodes that keep
what reaches them are those whose edges weigh nothing together.

## Main definitions

* `LearningGraph.weightOf` — the weight of an edge under given parameters
* `LearningGraph.out` — the weighed links of a node

## Main results

* `Transitions.load_spec` — what loaded transitions hold
* `Transitions.exists_load` — without negative weights there are transitions
-/

namespace ProofWalk

namespace LearningGraph

variable (squash : Squash) (p : Parameters ℝ) (g : LearningGraph)

/-- The weight of an edge. -/
noncomputable def weightOf (e : Nat) : ℝ :=
  (Transitions.weigh squash (g.features.map fun name => p.getD name squash.default)
    (g.labels e)).weight

/-- The links of a node with their weights. -/
noncomputable def linksOf (u : Nat) : List (Nat × ℝ) :=
  (g.edgesOf u).map fun e => (g.target e, g.weightOf squash p e)

/-- The links of the nodes of the graph with their weights. -/
noncomputable def out (u : Nat) : Option (List (Nat × ℝ)) :=
  if u ∈ g.nodes then some (g.linksOf squash p u) else none

/-- The total weight of the links of a node. -/
noncomputable def totalOf (u : Nat) : ℝ := ((g.linksOf squash p u).map (·.2)).sum

end LearningGraph

namespace Transitions

variable {squash : Squash} {p : Parameters ℝ} {g : LearningGraph}

theorem ofNode_spec {u : Nat} {shares : List (ℝ × SparseRow ℝ)} {absorbs : Bool}
    (done : ofNode squash (g.features.map fun name => p.getD name squash.default) g u =
      .ok (shares, absorbs)) :
    shares.map (·.1) =
        (g.edgesOf u).map (fun e => g.weightOf squash p e / g.totalOf squash p u) ∧
      absorbs = decide (g.totalOf squash p u = 0) := by
  have total : Scalar.sum (((g.edgesOf u).map fun e => weigh squash
      (g.features.map fun name => p.getD name squash.default) (g.labels e)).map (·.weight)) =
      g.totalOf squash p u := by
    rw [Scalar.sum_real, LearningGraph.totalOf, LearningGraph.linksOf, List.map_map, List.map_map]
    rfl
  unfold ofNode at done
  simp only [total] at done
  split at done
  · rename_i weightless
    have zero : g.totalOf squash p u = 0 := eq_of_beq weightless
    split at done
    · cases done
    · cases done
      rw [List.map_map, List.map_map]
      refine ⟨List.map_congr_left fun e _ => ?_, (decide_eq_true zero).symm⟩
      rw [zero, div_zero]
      rfl
  · rename_i weighty
    cases done
    rw [List.map_map, List.map_map]
    exact ⟨rfl, (decide_eq_false fun zero => weighty (beq_iff_eq.2 zero)).symm⟩

/-- The probabilities of nodes in turn are laid out one after the other. -/
theorem foldlM_spec {us : List Nat} {t t' : Transitions ℝ}
    (done : us.foldlM (fun t u => do
      let (shares, absorbs) ←
        ofNode squash (g.features.map fun name => p.getD name squash.default) g u
      return t.addNode shares absorbs) t = .ok t') :
    t'.probability.toList = t.probability.toList ++ us.flatMap (fun u =>
        (g.edgesOf u).map fun e => g.weightOf squash p e / g.totalOf squash p u) ∧
      t'.absorbing.toList =
        t.absorbing.toList ++ us.map fun u => decide (g.totalOf squash p u = 0) := by
  induction us generalizing t with
  | nil =>
    cases done
    simp
  | cons u rest ih =>
    rw [List.foldlM_cons] at done
    obtain ⟨t₁, first, others⟩ := Except.bind_eq_ok.1 done
    obtain ⟨⟨shares, absorbs⟩, node, equal⟩ := Except.bind_eq_ok.1 first
    cases equal
    obtain ⟨isShares, isAbsorbs⟩ := ofNode_spec node
    obtain ⟨probability, absorbing⟩ := ih others
    constructor
    · rw [probability, addNode, List.flatMap_cons, ← isShares]
      simp
    · rw [absorbing, addNode, List.map_cons, ← isAbsorbs]
      simp

/-- Loaded transitions hold the share of every edge in the total weight of its node, and which nodes
have no weight to share. -/
theorem load_spec {t : Transitions ℝ} (loaded : load squash p g = .ok t)
    (wellFormed : g.WellFormed) {u : Nat} (node : u ∈ g.nodes) :
    t.isAbsorbing u = decide (g.totalOf squash p u = 0) ∧
      ∀ e ∈ g.edgesOf u, t.at_ e = g.weightOf squash p e / g.totalOf squash p u := by
  obtain ⟨probability, absorbing⟩ := foldlM_spec loaded
  constructor
  · rw [isAbsorbing, ← Array.getElem?_toList, absorbing]
    exact congrArg (·.getD true) (LearningGraph.getElem?_cons_map_nodes false _ node)
  · intro e member
    rw [at_, ← Array.getElem?_toList, probability]
    exact congrArg (·.getD 0) (wellFormed.getElem?_flatMap
      (fun u e => g.weightOf squash p e / g.totalOf squash p u) node member)

/-- Transitions are loaded if no edge has a negative weight. -/
theorem exists_load (weights : ∀ e, 0 ≤ g.weightOf squash p e) : ∃ t, load squash p g = .ok t := by
  have node (u : Nat) : ∃ r, ofNode squash (g.features.map fun name => p.getD name squash.default) g u =
      .ok r := by
    unfold ofNode
    simp only [Scalar.sum_real, List.map_map]
    split
    · rename_i total
      -- weights that are not negative and add up to zero are zero
      have zero : ∀ w ∈ (g.edgesOf u).map (g.weightOf squash p), w = 0 := by
        intro w member
        refine List.all_zero_of_le_zero_le_of_sum_eq_zero (fun w' member' => ?_) (eq_of_beq total) member
        obtain ⟨e, -, rfl⟩ := List.mem_map.1 member'
        exact weights e
      rw [if_neg]
      · exact ⟨_, rfl⟩
      · intro some
        obtain ⟨weighed, member, weighs⟩ := List.any_eq_true.1 some
        obtain ⟨e, isEdge, rfl⟩ := List.mem_map.1 member
        have none : g.weightOf squash p e = 0 := zero _ (List.mem_map_of_mem isEdge)
        exact (bne_iff_ne.1 weighs) none
    · exact ⟨_, rfl⟩
  unfold load
  generalize ({ probability := #[], slope := #[], absorbing := #[false] } : Transitions ℝ) = t
  induction g.nodes generalizing t with
  | nil => exact ⟨t, rfl⟩
  | cons u rest ih =>
    obtain ⟨⟨shares, absorbs⟩, done⟩ := node u
    obtain ⟨t', behind⟩ := ih (t.addNode shares absorbs)
    refine ⟨t', ?_⟩
    rw [List.foldlM_cons, done]
    exact behind

end Transitions

/-- Rectified weights are not negative. -/
theorem LearningGraph.weightOf_relu_nonneg (p : Parameters ℝ) (g : LearningGraph) (e : Nat) :
    0 ≤ g.weightOf .relu p e :=
  le_max_right _ _

end ProofWalk
