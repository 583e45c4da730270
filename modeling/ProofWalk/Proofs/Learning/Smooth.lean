import Mathlib
import ProofWalk.Proofs.Exact
import ProofWalk.Learning.Transitions
import ProofWalk.Proofs.Learning.Ranges
import ProofWalk.Proofs.Learning.Slopes
import ProofWalk.Proofs.Squash

/-!
# Probabilities whose slopes are derivatives

When the weight of one feature of a learning graph varies, so do the probabilities of its edges. Where
the graph is smooth, the slopes that are loaded with the probabilities are their derivatives, by the
quotient rule. A graph is not smooth at a node whose edges weigh nothing together, unless they go on
weighing nothing nearby, and at an edge whose score is at the corner of the squashing function.

## Main definitions

* `LearningGraph.edgeScore`, `LearningGraph.edgeWeight`, `LearningGraph.nodeWeight` — what features
  make of edges and nodes
* `LearningGraph.Smooth` — where probabilities have derivatives
* `LearningGraph.transitions` — the transitions under given weights
* `Transitions.Tracks` — probabilities whose slopes are derivatives
* `LearningGraph.HasPartial` — a partial derivative by the weight of a feature

## Main results

* `Transitions.ofWeights_spec` — what transitions hold, unless a node is degenerate
* `LearningGraph.Smooth.tracks` — slopes are derivatives where a graph is smooth
* `LearningGraph.Smooth.exists_load` — such a graph has transitions
-/

namespace ProofWalk

open Filter Topology

/-! ### Weights -/

namespace LearningGraph

/-- The weights of the features of a graph under given parameters. -/
def weights {K : Type} [Scalar K] (squash : Squash) (p : Parameters K) (g : LearningGraph) : Array K :=
  g.features.map fun name => p.getD name squash.default

theorem size_weights {K : Type} [Scalar K] (squash : Squash) (p : Parameters K) (g : LearningGraph) :
    (g.weights squash p).size = g.featureCount :=
  Array.size_map ..

variable (squash : Squash) (g : LearningGraph) (weights : Array ℝ)

/-- The score of an edge. -/
noncomputable def edgeScore (e : Nat) : ℝ :=
  ((g.labels e).map fun label => (weights[label.1]?).getD 0 * Scalar.ofFloat label.2).sum

/-- The weight of an edge. -/
noncomputable def edgeWeight (e : Nat) : ℝ := squash.apply (g.edgeScore weights e)

/-- The total weight of the edges of a node. -/
noncomputable def nodeWeight (u : Nat) : ℝ := ((g.edgesOf u).map (g.edgeWeight squash weights)).sum

/-- How the score of an edge changes with the weight of a feature. -/
noncomputable def edgeSlope (k e : Nat) : ℝ :=
  SparseRow.entry k ((g.labels e).map fun label => (label.1, Scalar.ofFloat label.2))

/-- Every node has a weight to share, or edges that all weigh nothing. -/
def Regular : Prop :=
  ∀ u ∈ g.nodes, g.nodeWeight squash weights u ≠ 0 ∨ ∀ e ∈ g.edgesOf u, g.edgeWeight squash weights e = 0

/-- Every node has no edges, a total weight other than zero, or rectified edges with negative scores
only, and no rectified edge has a score of zero. -/
structure Smooth : Prop where
  node : ∀ u ∈ g.nodes, g.edgesOf u = [] ∨ g.nodeWeight squash weights u ≠ 0 ∨
    squash = .relu ∧ ∀ e ∈ g.edgesOf u, g.edgeScore weights e < 0
  edge : ∀ u ∈ g.nodes, ∀ e ∈ g.edgesOf u, squash.Smooth (g.edgeScore weights e)

/-- The edges of a node, weighed. -/
noncomputable def weighed (u : Nat) : List (Transitions.Weighed ℝ) :=
  (g.edgesOf u).map fun e => Transitions.weigh squash weights (g.labels e)

/-- The share of an edge in the weight of its node, with its slope. -/
noncomputable def shareOf (u e : Nat) : ℝ × SparseRow ℝ :=
  if g.nodeWeight squash weights u = 0 then (0, [])
  else Transitions.share (g.nodeWeight squash weights u)
    (Transitions.totalSlope (g.weighed squash weights u))
    (Transitions.weigh squash weights (g.labels e))

variable {squash g weights}

theorem weight_weigh (e : Nat) :
    (Transitions.weigh squash weights (g.labels e)).weight = g.edgeWeight squash weights e := by
  rw [edgeWeight, edgeScore, ← Scalar.sum_real]
  rfl

theorem steepness_weigh (e : Nat) :
    (Transitions.weigh squash weights (g.labels e)).steepness =
      squash.derivative (g.edgeScore weights e) := by
  rw [edgeScore, ← Scalar.sum_real]
  rfl

theorem nodeWeight_of_weightless {u : Nat}
    (weightless : ∀ e ∈ g.edgesOf u, g.edgeWeight squash weights e = 0) :
    g.nodeWeight squash weights u = 0 := by
  refine List.sum_eq_zero fun w member => ?_
  obtain ⟨e, isEdge, rfl⟩ := List.mem_map.1 member
  exact weightless e isEdge

end LearningGraph

/-! ### Transitions -/

namespace Transitions

/-- The transitions of a graph whose features have the given weights. -/
def ofWeights {K : Type} [Scalar K] (squash : Squash) (weights : Array K) (g : LearningGraph) :
    Except Error (Transitions K) :=
  g.nodes.foldlM (fun t u => do
    let shared ← ofNode squash weights g u
    return t.addNode shared.1 shared.2) { probability := #[], slope := #[], absorbing := #[false] }

/-- Transitions are loaded from the weights that parameters give the features. -/
theorem load_eq {K : Type} [Scalar K] (squash : Squash) (p : Parameters K) (g : LearningGraph) :
    load squash p g = ofWeights squash (g.weights squash p) g := rfl

end Transitions

/-- The transitions of a graph whose features have the given weights; none if there are none. -/
noncomputable def LearningGraph.transitions (squash : Squash) (g : LearningGraph) (weights : Array ℝ) :
    Transitions ℝ :=
  (Transitions.ofWeights squash weights g).toOption.getD ⟨#[], #[], #[]⟩

namespace Transitions

variable {squash : Squash} {g : LearningGraph} {weights : Array ℝ}

theorem ofNode_eq {u : Nat} (regular : g.nodeWeight squash weights u ≠ 0 ∨
      ∀ e ∈ g.edgesOf u, g.edgeWeight squash weights e = 0) :
    ofNode squash weights g u = .ok ((g.edgesOf u).map (g.shareOf squash weights u),
      decide (g.nodeWeight squash weights u = 0)) := by
  have total : Scalar.sum ((g.weighed squash weights u).map (·.weight)) =
      g.nodeWeight squash weights u := by
    rw [Scalar.sum_real, LearningGraph.weighed, List.map_map, LearningGraph.nodeWeight]
    exact congrArg List.sum (List.map_congr_left fun e _ => LearningGraph.weight_weigh e)
  have unfolded : ofNode squash weights g u =
      let edges := g.weighed squash weights u
      let total := Scalar.sum (edges.map (·.weight))
      if total == 0 then
        if edges.any fun e => e.weight != 0 then .error (.degenerateNode u)
        else .ok (edges.map fun _ => (0, []), true)
      else .ok (edges.map (share total (totalSlope edges)), false) := rfl
  rw [unfolded]
  simp only [total]
  by_cases zero : g.nodeWeight squash weights u = 0
  · have weightless := regular.resolve_left (not_not.2 zero)
    rw [if_pos (beq_iff_eq.2 zero), if_neg, decide_eq_true zero, LearningGraph.weighed, List.map_map]
    · refine congrArg (fun shares => Except.ok (shares, true)) (List.map_congr_left fun e _ => ?_)
      rw [LearningGraph.shareOf, if_pos zero]
      rfl
    · intro some
      obtain ⟨weighed, member, weighs⟩ := List.any_eq_true.1 some
      obtain ⟨e, isEdge, rfl⟩ := List.mem_map.1 member
      rw [LearningGraph.weight_weigh, weightless e isEdge] at weighs
      exact bne_iff_ne.1 weighs rfl
  · rw [if_neg (mt beq_iff_eq.1 zero), decide_eq_false zero]
    refine congrArg (fun shares => Except.ok (shares, false)) (List.map_map.trans ?_)
    refine List.map_congr_left fun e _ => ?_
    rw [LearningGraph.shareOf, if_neg zero]
    rfl

/-- The shares of nodes in turn are laid out one after the other. -/
private theorem foldlM_shares {shares : Nat → List (ℝ × SparseRow ℝ)} {absorbs : Nat → Bool}
    {us : List Nat} (known : ∀ u ∈ us, ofNode squash weights g u = .ok (shares u, absorbs u))
    (t : Transitions ℝ) :
    ∃ t', us.foldlM (fun t u => do
        let shared ← ofNode squash weights g u
        return t.addNode shared.1 shared.2) t = .ok t' ∧
      t'.probability.toList = t.probability.toList ++ us.flatMap (fun u => (shares u).map (·.1)) ∧
      t'.slope.toList = t.slope.toList ++ us.flatMap (fun u => (shares u).map (·.2)) ∧
      t'.absorbing.toList = t.absorbing.toList ++ us.map absorbs := by
  induction us generalizing t with
  | nil => exact ⟨t, rfl, by simp, by simp, by simp⟩
  | cons u rest ih =>
    obtain ⟨t', done, probability, slope, absorbing⟩ :=
      ih (fun v member => known v (List.mem_cons_of_mem _ member)) (t.addNode (shares u) (absorbs u))
    refine ⟨t', ?_, ?_, ?_, ?_⟩
    · rw [List.foldlM_cons, known u (by simp)]
      exact done
    · rw [probability, addNode, List.flatMap_cons]
      simp
    · rw [slope, addNode, List.flatMap_cons]
      simp
    · rw [absorbing, addNode, List.map_cons]
      simp

/-- If no node is degenerate there are transitions, and they hold the share of every edge. -/
theorem ofWeights_spec (wellFormed : g.WellFormed) (regular : g.Regular squash weights) :
    ofWeights squash weights g = .ok (g.transitions squash weights) ∧ ∀ u ∈ g.nodes,
      (g.transitions squash weights).isAbsorbing u = decide (g.nodeWeight squash weights u = 0) ∧
      ∀ e ∈ g.edgesOf u, (g.transitions squash weights).at_ e = (g.shareOf squash weights u e).1 ∧
        (g.transitions squash weights).slopeAt e = (g.shareOf squash weights u e).2 := by
  obtain ⟨t, done, probability, slope, absorbing⟩ :=
    foldlM_shares (fun u node => ofNode_eq (regular u node)) ⟨#[], #[], #[false]⟩
  have loaded : ofWeights squash weights g = .ok t := done
  have same : g.transitions squash weights = t := by
    rw [LearningGraph.transitions, loaded]
    rfl
  rw [same]
  simp only [List.map_map] at probability slope
  refine ⟨loaded, fun u node => ⟨?_, fun e member => ⟨?_, ?_⟩⟩⟩
  · rw [isAbsorbing, ← Array.getElem?_toList, absorbing]
    exact congrArg (·.getD true) (LearningGraph.getElem?_cons_map_nodes false _ node)
  · rw [at_, ← Array.getElem?_toList, probability]
    exact congrArg (·.getD 0) (wellFormed.getElem?_flatMap
      (fun u e => (g.shareOf squash weights u e).1) node member)
  · rw [slopeAt, ← Array.getElem?_toList, slope]
    exact congrArg (·.getD []) (wellFormed.getElem?_flatMap
      (fun u e => (g.shareOf squash weights u e).2) node member)

end Transitions

/-! ### Slopes of shares -/

namespace Transitions

variable {k : Nat}

private theorem entry_foldl_add (c : ℝ) (labels : List (Nat × Float)) (row : SparseRow ℝ) :
    SparseRow.entry k (labels.foldl
        (fun row label => SparseRow.add label.1 (c * Scalar.ofFloat label.2) row) row) =
      SparseRow.entry k row +
        c * SparseRow.entry k (labels.map fun label => (label.1, Scalar.ofFloat label.2)) := by
  induction labels generalizing row with
  | nil => simp
  | cons label rest ih =>
    rw [List.foldl_cons, ih, SparseRow.entry_add, List.map_cons, SparseRow.entry_cons, mul_add, mul_ite,
      mul_zero, add_assoc]

private theorem keys_foldl_add (c : ℝ) (labels : List (Nat × Float)) (row : SparseRow ℝ) (i : Nat) :
    i ∈ (labels.foldl
        (fun row label => SparseRow.add label.1 (c * Scalar.ofFloat label.2) row) row).map (·.1) ↔
      i ∈ row.map (·.1) ∨ i ∈ labels.map (·.1) := by
  induction labels generalizing row with
  | nil => simp
  | cons label rest ih =>
    rw [List.foldl_cons, ih, SparseRow.mem_keys_add, List.map_cons, List.mem_cons]
    tauto

private theorem entry_foldl_addPresent (c total : ℝ) {labels : List (Nat × Float)} {row : SparseRow ℝ}
    (present : ∀ label ∈ labels, label.1 ∈ row.map (·.1)) :
    SparseRow.entry k (labels.foldl
        (fun row label => SparseRow.addPresent label.1 (c * Scalar.ofFloat label.2 / total) row) row) =
      SparseRow.entry k row +
        c * SparseRow.entry k (labels.map fun label => (label.1, Scalar.ofFloat label.2)) / total := by
  induction labels generalizing row with
  | nil => simp
  | cons label rest ih =>
    rw [List.foldl_cons, ih, SparseRow.entry_addPresent (present label (by simp)), List.map_cons,
      SparseRow.entry_cons, mul_add, mul_ite, mul_zero, add_div, add_assoc]
    · congr 2
      split
      · rfl
      · rw [zero_div]
    · intro other member
      rw [SparseRow.map_fst_addPresent]
      exact present other (List.mem_cons_of_mem _ member)

/-- How the total weight of edges changes with a feature. -/
private theorem totalSlope_spec (edges : List (Weighed ℝ)) (row : SparseRow ℝ) :
    let slope := edges.foldl (fun row e =>
      e.labels.foldl (fun row label => SparseRow.add label.1 (e.steepness * Scalar.ofFloat label.2) row)
        row) row
    SparseRow.entry k slope = SparseRow.entry k row + (edges.map fun e => e.steepness *
        SparseRow.entry k (e.labels.map fun label => (label.1, Scalar.ofFloat label.2))).sum ∧
      ∀ i, i ∈ slope.map (·.1) ↔ i ∈ row.map (·.1) ∨ ∃ e ∈ edges, i ∈ e.labels.map (·.1) := by
  induction edges generalizing row with
  | nil => exact ⟨by simp, by simp⟩
  | cons e rest ih =>
    obtain ⟨entry, keys⟩ := ih (e.labels.foldl
      (fun row label => SparseRow.add label.1 (e.steepness * Scalar.ofFloat label.2) row) row)
    constructor
    · rw [List.foldl_cons, entry, entry_foldl_add, List.map_cons, List.sum_cons, add_assoc]
    · intro i
      rw [List.foldl_cons, keys, keys_foldl_add, List.exists_mem_cons_iff]
      tauto

end Transitions

namespace LearningGraph

variable {squash : Squash} {g : LearningGraph} {weights : Array ℝ} {k u e : Nat}

/-- How the total weight of a node changes with a feature. -/
theorem entry_totalSlope :
    SparseRow.entry k (Transitions.totalSlope (g.weighed squash weights u)) =
      ((g.edgesOf u).map fun e =>
        squash.derivative (g.edgeScore weights e) * g.edgeSlope k e).sum := by
  refine (Transitions.totalSlope_spec (g.weighed squash weights u) []).1.trans ?_
  rw [SparseRow.entry_nil, zero_add, weighed, List.map_map]
  refine congrArg List.sum (List.map_congr_left fun e _ => ?_)
  rw [← @steepness_weigh squash]
  rfl

/-- The slope of a share by the quotient rule. -/
theorem entry_shareOf (weighs : g.nodeWeight squash weights u ≠ 0) (member : e ∈ g.edgesOf u) :
    (g.shareOf squash weights u e).1 =
        g.edgeWeight squash weights e / g.nodeWeight squash weights u ∧
      SparseRow.entry k (g.shareOf squash weights u e).2 =
        -(g.edgeWeight squash weights e / g.nodeWeight squash weights u) /
            g.nodeWeight squash weights u *
            SparseRow.entry k (Transitions.totalSlope (g.weighed squash weights u)) +
          squash.derivative (g.edgeScore weights e) * g.edgeSlope k e /
            g.nodeWeight squash weights u := by
  rw [shareOf, if_neg weighs, ← weight_weigh, ← @steepness_weigh squash]
  set total := g.nodeWeight squash weights u
  set slope := Transitions.totalSlope (g.weighed squash weights u) with isSlope
  set edge := Transitions.weigh squash weights (g.labels e) with isEdge
  refine ⟨rfl, (SparseRow.entry_filter_ne_zero _).trans ?_⟩
  refine (Transitions.entry_foldl_addPresent edge.steepness total ?_).trans ?_
  · -- every feature of an edge is among those of its node
    intro label isLabel
    have keys := (Transitions.totalSlope_spec (k := k) (g.weighed squash weights u) []).2 label.1
    rw [List.map_map]
    exact keys.2 (.inr ⟨edge, List.mem_map_of_mem member, List.mem_map_of_mem isLabel⟩)
  · refine congrArg₂ (· + ·) ?_ rfl
    rw [← SparseRow.entry_map_mul]
    refine congrArg (SparseRow.entry k) (List.map_congr_left fun d _ => ?_)
    refine Prod.ext rfl ?_
    change -(edge.weight / total) * d.2 / total = _
    ring

end LearningGraph

/-! ### Derivatives -/

/-- Transitions that vary with the weight of a feature: the slopes of probabilities are derivatives,
and the nodes that keep what reaches them stay the same nearby. -/
structure Transitions.Tracks (T : ℝ → Transitions ℝ) (θ₀ : ℝ) (g : LearningGraph) (k : Nat) : Prop where
  absorbing : ∀ u ∈ g.nodes, ∀ᶠ θ in 𝓝 θ₀, (T θ).isAbsorbing u = (T θ₀).isAbsorbing u
  derivative : ∀ u ∈ g.nodes, ∀ e ∈ g.edgesOf u,
    HasDerivAt (fun θ => (T θ).at_ e) (SparseRow.entry k ((T θ₀).slopeAt e)) θ₀

/-- A number is the partial derivative, by the weight of a feature, of something that is computed from
the transitions of a graph, and there are transitions for all weights nearby. -/
structure LearningGraph.HasPartial (squash : Squash) (p : Parameters ℝ) (g : LearningGraph) (k : Nat)
    (f : Transitions ℝ → ℝ) (d : ℝ) : Prop where
  feature : k < (g.weights squash p).size
  loads : ∀ᶠ θ in 𝓝 (g.weights squash p)[k],
    ∃ t, Transitions.ofWeights squash ((g.weights squash p).setIfInBounds k θ) g = .ok t
  derivative : HasDerivAt (fun θ => f (g.transitions squash ((g.weights squash p).setIfInBounds k θ))) d
    (g.weights squash p)[k]

/-- What holds nearby of every member of a list holds nearby of all of them. -/
theorem eventually_all_mem {α : Type} {l : Filter ℝ} {xs : List α} {p : ℝ → α → Prop}
    (each : ∀ x ∈ xs, ∀ᶠ θ in l, p θ x) : ∀ᶠ θ in l, ∀ x ∈ xs, p θ x := by
  induction xs with
  | nil => exact .of_forall fun θ x member => by cases member
  | cons x rest ih =>
    filter_upwards [each x (by simp), ih fun y member => each y (List.mem_cons_of_mem _ member)]
      with θ here others
    exact List.forall_mem_cons.2 ⟨here, others⟩

theorem hasDerivAt_list_sum {α : Type} {xs : List α} {f : α → ℝ → ℝ} {f' : α → ℝ} {θ₀ : ℝ}
    (each : ∀ x ∈ xs, HasDerivAt (f x) (f' x) θ₀) :
    HasDerivAt (fun θ => (xs.map fun x => f x θ).sum) (xs.map f').sum θ₀ := by
  induction xs with
  | nil => exact hasDerivAt_const ..
  | cons x rest ih =>
    simp only [List.map_cons, List.sum_cons]
    exact (each x (by simp)).fun_add (ih fun y member => each y (List.mem_cons_of_mem _ member))

namespace LearningGraph

variable {squash : Squash} {g : LearningGraph} {weights : Array ℝ} {k u e : Nat} {θ₀ : ℝ}

theorem hasDerivAt_edgeScore (feature : k < weights.size) (e : Nat) :
    HasDerivAt (fun θ => g.edgeScore (weights.setIfInBounds k θ) e) (g.edgeSlope k e) θ₀ := by
  have varies (label : Nat × Float) :
      HasDerivAt (fun θ => ((weights.setIfInBounds k θ)[label.1]?).getD 0 * Scalar.ofFloat label.2)
        (if label.1 = k then Scalar.ofFloat label.2 else 0) θ₀ := by
    by_cases here : label.1 = k
    · rw [if_pos here]
      have value (θ : ℝ) : ((weights.setIfInBounds k θ)[label.1]?).getD 0 = θ := by
        rw [here, Array.getElem?_setIfInBounds_self_of_lt feature]
        rfl
      simp only [value]
      exact hasDerivAt_mul_const _
    · rw [if_neg here]
      have value (θ : ℝ) : (weights.setIfInBounds k θ)[label.1]? = weights[label.1]? :=
        Array.getElem?_setIfInBounds_ne (Ne.symm here)
      simp only [value]
      exact hasDerivAt_const ..
  unfold edgeScore edgeSlope
  induction g.labels e with
  | nil => exact hasDerivAt_const ..
  | cons label rest ih =>
    simp only [List.map_cons, List.sum_cons, SparseRow.entry_cons]
    exact (varies label).fun_add ih

variable (smooth : g.Smooth squash weights) (feature : k < weights.size)

/-- The weight of a feature does not change by being set to itself. -/
theorem setIfInBounds_self (weights : Array ℝ) (k : Nat) (feature : k < weights.size) :
    weights.setIfInBounds k weights[k] = weights := by
  refine Array.ext (Array.size_setIfInBounds ..) fun i _ inside => ?_
  rw [Array.getElem_setIfInBounds]
  split
  · rename_i here
    subst here
    rfl
  · rfl

namespace Smooth

include smooth

/-- No node of a smooth graph is degenerate. -/
theorem regular : g.Regular squash weights := by
  intro u node
  rcases smooth.node u node with none | weighs | ⟨rfl, negative⟩
  · refine .inr fun e member => ?_
    rw [none] at member
    cases member
  · exact .inl weighs
  · exact .inr fun e member => max_eq_right (negative e member).le

include feature

theorem hasDerivAt_edgeWeight (node : u ∈ g.nodes) (member : e ∈ g.edgesOf u) :
    HasDerivAt (fun θ => g.edgeWeight squash (weights.setIfInBounds k θ) e)
      (squash.derivative (g.edgeScore weights e) * g.edgeSlope k e) weights[k] := by
  have outer := Squash.hasDerivAt_apply (smooth.edge u node e member)
  rw [← setIfInBounds_self weights k feature] at outer
  have composed := outer.comp weights[k] (hasDerivAt_edgeScore (g := g) feature e)
  rw [setIfInBounds_self weights k feature] at composed
  exact composed

theorem hasDerivAt_nodeWeight (node : u ∈ g.nodes) :
    HasDerivAt (fun θ => g.nodeWeight squash (weights.setIfInBounds k θ) u)
      (SparseRow.entry k (Transitions.totalSlope (g.weighed squash weights u))) weights[k] := by
  rw [entry_totalSlope]
  exact hasDerivAt_list_sum fun e member => smooth.hasDerivAt_edgeWeight feature node member

/-- A node has a weight to share, or its edges weigh nothing nearby. -/
theorem weight_or_weightless (node : u ∈ g.nodes) :
    g.nodeWeight squash weights u ≠ 0 ∨ ∀ᶠ θ in 𝓝 weights[k],
      ∀ e ∈ g.edgesOf u, g.edgeWeight squash (weights.setIfInBounds k θ) e = 0 := by
  rcases smooth.node u node with none | weighs | ⟨rfl, negative⟩
  · refine .inr (.of_forall fun θ e member => ?_)
    rw [none] at member
    cases member
  · exact .inl weighs
  · -- scores that are negative stay negative nearby
    refine .inr (eventually_all_mem fun e member => ?_)
    have continuous : ContinuousAt (fun θ => g.edgeScore (weights.setIfInBounds k θ) e) weights[k] :=
      (hasDerivAt_edgeScore feature e).continuousAt
    have below := negative e member
    rw [← setIfInBounds_self weights k feature] at below
    exact (continuous.eventually_lt_const below).mono fun θ less => max_eq_right less.le

/-- No node becomes degenerate nearby. -/
theorem eventually_regular :
    ∀ᶠ θ in 𝓝 weights[k], g.Regular squash (weights.setIfInBounds k θ) := by
  refine eventually_all_mem fun u node => ?_
  rcases smooth.weight_or_weightless feature node with weighs | weightless
  · have continuous := (smooth.hasDerivAt_nodeWeight feature node).continuousAt
    rw [← setIfInBounds_self weights k feature] at weighs
    exact (continuous.eventually_ne weighs).mono fun θ => .inl
  · exact weightless.mono fun θ => .inr

/-- Where a graph is smooth, the slopes of its probabilities are their derivatives. -/
theorem tracks (wellFormed : g.WellFormed) :
    Transitions.Tracks (fun θ => g.transitions squash (weights.setIfInBounds k θ)) weights[k] g k := by
  have regular := smooth.eventually_regular feature
  have shares := (Transitions.ofWeights_spec wellFormed smooth.regular).2
  constructor
  case absorbing =>
    intro u node
    rw [setIfInBounds_self weights k feature, (shares u node).1]
    -- near the weight the node either has links that weigh something, or none at all
    rcases smooth.weight_or_weightless feature node with weighs | weightless
    · have continuous := (smooth.hasDerivAt_nodeWeight feature node).continuousAt
      have around := weighs
      rw [← setIfInBounds_self weights k feature] at around
      filter_upwards [regular, continuous.eventually_ne around] with θ regular' weighs'
      rw [((Transitions.ofWeights_spec wellFormed regular').2 u node).1, decide_eq_false weighs,
        decide_eq_false weighs']
    · have none := weightless.self_of_nhds
      rw [setIfInBounds_self weights k feature] at none
      filter_upwards [regular, weightless] with θ regular' weightless'
      rw [((Transitions.ofWeights_spec wellFormed regular').2 u node).1,
        decide_eq_true (nodeWeight_of_weightless none),
        decide_eq_true (nodeWeight_of_weightless weightless')]
  case derivative =>
    intro u node e member
    rw [setIfInBounds_self weights k feature, ((shares u node).2 e member).2]
    rcases smooth.weight_or_weightless feature node with weighs | weightless
    · have weight := smooth.hasDerivAt_edgeWeight feature node member
      have total := smooth.hasDerivAt_nodeWeight feature node
      have around := weighs
      rw [← setIfInBounds_self weights k feature] at around
      have quotient := weight.fun_div total around
      rw [setIfInBounds_self weights k feature] at quotient
      refine HasDerivAt.congr_of_eventuallyEq (quotient.congr_deriv ?_) ?_
      · rw [(entry_shareOf weighs member).2]
        field_simp
        ring
      · filter_upwards [regular, total.continuousAt.eventually_ne around] with θ regular' weighs'
        rw [(((Transitions.ofWeights_spec wellFormed regular').2 u node).2 e member).1,
          (entry_shareOf (k := k) weighs' member).1]
    · have none := weightless.self_of_nhds
      rw [setIfInBounds_self weights k feature] at none
      have flat : g.shareOf squash weights u e = (0, []) := if_pos (nodeWeight_of_weightless none)
      rw [flat]
      refine (hasDerivAt_const weights[k] 0).congr_of_eventuallyEq ?_
      filter_upwards [regular, weightless] with θ regular' weightless'
      rw [(((Transitions.ofWeights_spec wellFormed regular').2 u node).2 e member).1, shareOf,
        if_pos (nodeWeight_of_weightless weightless')]

end Smooth

/-- Where a graph is smooth, its transitions are loaded and vary smoothly with the weight of each
feature. -/
theorem Smooth.exists_load {p : Parameters ℝ} (wellFormed : g.WellFormed)
    (smooth : g.Smooth squash (g.weights squash p)) :
    ∃ t, Transitions.load squash p g = .ok t ∧ ∀ k < g.featureCount, ∃ T θ₀,
      T θ₀ = t ∧ Transitions.Tracks T θ₀ g k ∧
      ∀ (f : Transitions ℝ → ℝ) (d : ℝ), HasDerivAt (fun θ => f (T θ)) d θ₀ →
        g.HasPartial squash p k f d := by
  refine ⟨_, (Transitions.ofWeights_spec wellFormed smooth.regular).1, fun k feature => ?_⟩
  have inside : k < (g.weights squash p).size := by rwa [size_weights]
  refine ⟨_, _, ?_, smooth.tracks inside wellFormed, fun f d derivative => ⟨inside, ?_, derivative⟩⟩
  · rw [setIfInBounds_self _ _ inside]
  · exact (smooth.eventually_regular inside).mono fun θ regular' =>
      ⟨_, (Transitions.ofWeights_spec wellFormed regular').1⟩

end LearningGraph

end ProofWalk
