import ProofWalk.Proofs.Exact
import ProofWalk.Learning.Rounds
import ProofWalk.Proofs.Learning.Balance
import ProofWalk.Proofs.Learning.PushGradient
import ProofWalk.Proofs.Prover.Rounds

/-!
# Rounds of the learner

Whatever they do to slopes, the rounds of the learner do to scores what rounds of power iteration do. Loaded
transitions lose nothing, so slopes over all nodes cancel after every round.

## Main results

* `Transitions.conserves_of_load` — probabilities make one, and their slopes cancel
* `Rounds.spread_spec`, `Rounds.round_spec` — what moves in a round
* `Rounds.walk_spec` — the scores after a number of rounds
* `Rounds.mass_walk`, `Rounds.sum_slopeOf_walk` — all scores make one, and slopes cancel
-/

namespace ProofWalk

namespace Transitions

variable {squash : Squash} {p : Parameters ℝ} {g : LearningGraph} {t : Transitions ℝ}

/-- A node that has been given its shares has weight to share, or edges that all weigh nothing. -/
private theorem regular_of_ofNode {weights : Array ℝ} {u : Nat} {shared : List (ℝ × SparseRow ℝ) × Bool}
    (done : ofNode squash weights g u = .ok shared) :
    g.nodeWeight squash weights u ≠ 0 ∨ ∀ e ∈ g.edgesOf u, g.edgeWeight squash weights e = 0 := by
  refine or_iff_not_imp_left.2 fun weightless e member => ?_
  by_contra weighs
  have total : Scalar.sum (((g.edgesOf u).map fun e => weigh squash weights (g.labels e)).map (·.weight)) =
      0 := by
    rw [Scalar.sum_real, List.map_map, ← not_not.1 weightless, LearningGraph.nodeWeight]
    exact congrArg List.sum (List.map_congr_left fun e _ => LearningGraph.weight_weigh e)
  have some : ((g.edgesOf u).map fun e => weigh squash weights (g.labels e)).any
      (fun e => e.weight != 0) = true := by
    refine List.any_eq_true.2 ⟨_, List.mem_map_of_mem member, ?_⟩
    rw [LearningGraph.weight_weigh]
    exact bne_iff_ne.2 weighs
  rw [ofNode] at done
  simp only [total, beq_self_eq_true, if_true, some] at done
  cases done

/-- Transitions are loaded only if no node is degenerate. -/
theorem regular_of_load (loaded : load squash p g = .ok t) : g.Regular squash (g.weights squash p) := by
  have nodes : ∀ (us : List Nat) (t t' : Transitions ℝ), us.foldlM (fun t u => do
        let shared ← ofNode squash (g.weights squash p) g u
        return t.addNode shared.1 shared.2) t = .ok t' →
      ∀ u ∈ us, ∃ shared, ofNode squash (g.weights squash p) g u = .ok shared := by
    intro us
    induction us with
    | nil => exact fun _ _ _ u member => absurd member List.not_mem_nil
    | cons first rest ih =>
      intro t t' done u member
      rw [List.foldlM_cons] at done
      obtain ⟨t₁, here, behind⟩ := Except.bind_eq_ok.1 done
      obtain ⟨shared, node, -⟩ := Except.bind_eq_ok.1 here
      rcases List.mem_cons.1 member with rfl | member
      · exact ⟨shared, node⟩
      · exact ih t₁ t' behind u member
  intro u node
  obtain ⟨shared, done⟩ := nodes g.nodes _ t loaded u node
  exact regular_of_ofNode done

/-- Loaded transitions lose nothing. -/
theorem conserves_of_load (loaded : load squash p g = .ok t) (wellFormed : g.WellFormed) (k : Nat) :
    t.Conserves g k := by
  have regular := regular_of_load loaded
  have same := (ofWeights_spec wellFormed regular).1
  rw [load_eq, same] at loaded
  cases loaded
  exact LearningGraph.conserves_transitions wellFormed regular k

end Transitions

namespace Rounds

open Finsupp

variable {squash : Squash} {p : Parameters ℝ} {e : TrainingExample} {g : LearningGraph}
  {t : Transitions ℝ} {alpha : ℝ}

theorem score_along (score : ℝ) (slopes : Array ℝ) (next : DualScores ℝ) (edge : Nat) :
    (along g t alpha score slopes next edge).score =
      next.score.modify (g.target edge) (· + (1 - alpha) * t.at_ edge * score) :=
  DualScores.score_foldl_addSlope _ _ _ _

/-- The edges of a node are given their parts. -/
private theorem foldl_along {total score : ℝ} {slopes : Array ℝ} {edges : List Nat}
    (targets : ∀ edge ∈ edges, g.target edge ≤ g.nodeCount)
    (shares : ∀ edge ∈ edges, t.at_ edge = g.weightOf squash p edge / total) {next : DualScores ℝ}
    (size : next.score.size = g.nodeCount + 1) :
    (edges.foldl (along g t alpha score slopes) next).score.size = g.nodeCount + 1 ∧
      arrayFinsupp (edges.foldl (along g t alpha score slopes) next).score = arrayFinsupp next.score +
        ((edges.map fun edge => (g.target edge, g.weightOf squash p edge)).map fun l =>
          single l.1 ((1 - alpha) * (l.2 / total) * score)).sum := by
  induction edges generalizing next with
  | nil => exact ⟨size, (add_zero _).symm⟩
  | cons edge rest ih =>
    have step : (along g t alpha score slopes next edge).score =
        next.score.modify (g.target edge) (· + (1 - alpha) * t.at_ edge * score) :=
      score_along score slopes next edge
    have inside : g.target edge < next.score.size := by
      rw [size]
      exact Nat.lt_succ_of_le (targets edge (by simp))
    obtain ⟨size', passed⟩ := ih (fun edge member => targets edge (List.mem_cons_of_mem _ member))
      (fun edge member => shares edge (List.mem_cons_of_mem _ member))
      (show (along g t alpha score slopes next edge).score.size = _ by
        rw [step, Array.size_modify, size])
    refine ⟨size', passed.trans ?_⟩
    rw [step, arrayFinsupp_modify inside, List.map_cons, List.map_cons, List.sum_cons,
      shares edge (by simp), add_assoc]

/-- A node adds its share to the scores of the next round. -/
theorem spread_spec (loaded : Transitions.load squash p g = .ok t) (wellFormed : g.WellFormed) {u : Nat}
    (node : u ∈ g.nodes) (s : DualScores ℝ) {next : DualScores ℝ}
    (size : next.score.size = g.nodeCount + 1) :
    (spread g t alpha s next u).score.size = g.nodeCount + 1 ∧
      arrayFinsupp (spread g t alpha s next u).score = arrayFinsupp next.score +
        PowerRound.share alpha (g.linksOf squash p u) u (s.at_ u) := by
  obtain ⟨absorbing, shares⟩ := Transitions.load_spec loaded wellFormed node
  have inside : u < next.score.size := by
    have bounds := List.mem_range'_1.1 node
    omega
  have targets : ∀ edge ∈ g.edgesOf u, g.target edge ≤ g.nodeCount := fun edge member =>
    (wellFormed.targets edge (wellFormed.edge_lt node member)).2
  rw [spread, absorbing]
  simp only [decide_eq_true_eq]
  by_cases total : g.totalOf squash p u = 0
  · rw [if_pos total, PowerRound.share_of_weightless total]
    exact ⟨(Array.size_modify ..).trans size, arrayFinsupp_modify inside _⟩
  · rw [if_neg total, PowerRound.share_of_weight total]
    exact foldl_along targets shares size

/-- A round adds the shares of all nodes. -/
theorem round_spec (loaded : Transitions.load squash p e.graph = .ok t)
    (wellFormed : e.graph.WellFormed) {root : Nat} (inside : root ≤ e.graph.nodeCount)
    (start : e.seed = [(root, 1)]) {s : DualScores ℝ}
    (within : arrayFinsupp s.score ∈ supported ℝ ℝ {u | u ∈ e.graph.nodes}) :
    (round e t alpha s).score.size = e.graph.nodeCount + 1 ∧
      arrayFinsupp (round e t alpha s).score =
        PowerRound.next alpha root (e.graph.linksOf squash p) (arrayFinsupp s.score) := by
  have spreads : ∀ (us : List Nat), (∀ u ∈ us, u ∈ e.graph.nodes) → ∀ next : DualScores ℝ,
      next.score.size = e.graph.nodeCount + 1 →
      (us.foldl (spread e.graph t alpha s) next).score.size = e.graph.nodeCount + 1 ∧
        arrayFinsupp (us.foldl (spread e.graph t alpha s) next).score = arrayFinsupp next.score +
          (us.map fun u => PowerRound.share alpha (e.graph.linksOf squash p u) u (s.at_ u)).sum := by
    intro us nodes
    induction us with
    | nil => exact fun next size => ⟨size, (add_zero _).symm⟩
    | cons u rest ih =>
      intro next size
      obtain ⟨size₁, first⟩ : (spread e.graph t alpha s next u).score.size = _ ∧ _ :=
        spread_spec loaded wellFormed (nodes u (by simp)) s size
      obtain ⟨size', others⟩ := ih (fun v member => nodes v (List.mem_cons_of_mem _ member)) _ size₁
      refine ⟨size', ?_⟩
      rw [List.foldl_cons, others, first, List.map_cons, List.sum_cons, add_assoc]
  obtain ⟨size, seeded⟩ := DualScores.seeded_spec inside e.graph.featureCount alpha
  obtain ⟨size', sum⟩ := spreads e.graph.nodes (fun u member => member) _ size
  -- nodes outside the graph have no score
  have all : (arrayFinsupp s.score).sum (fun u x =>
        PowerRound.share alpha (e.graph.linksOf squash p u) u x) =
      (e.graph.nodes.map fun u =>
        PowerRound.share alpha (e.graph.linksOf squash p u) u (s.at_ u)).sum := by
    have distinct : e.graph.nodes.Nodup := List.nodup_range'
    rw [← List.sum_toFinset _ distinct]
    refine sum_of_support_subset _ (fun u member => ?_) _ fun u _ => PowerRound.share_zero _ _ _
    exact List.mem_toFinset.2 ((mem_supported ℝ _).1 within member)
  rw [round, start, PowerRound.next, all]
  exact ⟨size', sum.trans (congrArg (· + _) seeded)⟩

/-- Links of a learning graph do not lead out of it. -/
theorem closed_nodes (wellFormed : g.WellFormed) {root : Nat} (node : root ∈ g.nodes) :
    PowerRound.Closed {u | u ∈ g.nodes} root (g.linksOf squash p) where
  root := node
  links u inside l member := by
    obtain ⟨edge, isEdge, rfl⟩ := List.mem_map.1 member
    have bounds := wellFormed.targets edge (wellFormed.edge_lt inside isEdge)
    exact List.mem_range'_1.2 ⟨bounds.1, by omega⟩

/-- The scores after a number of rounds. -/
theorem walk_spec (loaded : Transitions.load squash p e.graph = .ok t)
    (wellFormed : e.graph.WellFormed) {root : Nat} (node : root ∈ e.graph.nodes)
    (start : e.seed = [(root, 1)]) (count : Nat) :
    arrayFinsupp (walk e t alpha count).score =
      PowerRound.after alpha root (e.graph.linksOf squash p) count := by
  have closed : PowerRound.Closed {u | u ∈ e.graph.nodes} root (e.graph.linksOf squash p) :=
    closed_nodes wellFormed node
  have inside : root ≤ e.graph.nodeCount := by
    have bounds := List.mem_range'_1.1 node
    omega
  have iterates (n : Nat) : ∀ s : DualScores ℝ,
      arrayFinsupp s.score ∈ supported ℝ ℝ {u | u ∈ e.graph.nodes} →
      arrayFinsupp (rounds e t alpha n s).score =
        (PowerRound.next alpha root (e.graph.linksOf squash p))^[n] (arrayFinsupp s.score) := by
    induction n with
    | zero => exact fun s _ => rfl
    | succ n ih =>
      intro s within
      obtain ⟨-, first⟩ : (round e t alpha s).score.size = _ ∧ _ :=
        round_spec loaded wellFormed inside start within
      rw [rounds, ih _ (by rw [first]; exact PowerRound.next_mem closed within), first,
        Function.iterate_succ_apply]
  obtain ⟨-, seeded⟩ := DualScores.seeded_spec inside e.graph.featureCount 1
  rw [walk, start, iterates, seeded]
  · rfl
  · rw [seeded]
    exact single_mem_supported ℝ _ node

/-- After every round all scores make one. -/
theorem mass_walk (loaded : Transitions.load squash p e.graph = .ok t) (wellFormed : e.graph.WellFormed)
    {root : Nat} (node : root ∈ e.graph.nodes) (start : e.seed = [(root, 1)]) (count : Nat) :
    (walk e t alpha count).mass = 1 := by
  rw [DualScores.mass, ← dot_arrayFinsupp_one, walk_spec loaded wellFormed node start]
  exact PowerRound.dot_after_one count

/-- So do the scores of the nodes: nothing is kept at index zero. -/
theorem sum_at_walk (loaded : Transitions.load squash p e.graph = .ok t) (wellFormed : e.graph.WellFormed)
    {root : Nat} (node : root ∈ e.graph.nodes) (start : e.seed = [(root, 1)]) (count : Nat) :
    ∑ u ∈ Finset.Icc 1 e.graph.nodeCount, (walk e t alpha count).at_ u = 1 := by
  have closed : PowerRound.Closed {u | u ∈ e.graph.nodes} root (e.graph.linksOf squash p) :=
    closed_nodes wellFormed node
  have within : arrayFinsupp (walk e t alpha count).score ∈ supported ℝ ℝ {u | u ∈ e.graph.nodes} := by
    rw [walk_spec loaded wellFormed node start]
    exact PowerRound.after_mem closed count
  have inside : (arrayFinsupp (walk e t alpha count).score).support ⊆ Finset.Icc 1 e.graph.nodeCount :=
    fun u member => LearningGraph.mem_Icc.2 ((mem_supported ℝ _).1 within member)
  have mass : (walk e t alpha count).mass = 1 := mass_walk loaded wellFormed node start count
  rw [← mass, DualScores.mass, ← dot_arrayFinsupp_one, dot,
    sum_of_support_subset _ inside _ fun u _ => zero_mul 1]
  exact Finset.sum_congr rfl fun u _ => (mul_one _).symm

/-! ### Slopes -/

section

variable {s next : DualScores ℝ} {k u : Nat}

/-- The slopes of a node move on, or stay with it, and `alpha` of them is lost. -/
theorem sum_slopeOf_spread (wellFormed : g.WellFormed) (conserves : t.Conserves g k)
    (feature : k < g.featureCount) (node : u ∈ g.nodes) (fits : next.Fits g.nodeCount g.featureCount) :
    (spread g t alpha s next u).Fits g.nodeCount g.featureCount ∧
      ∑ v ∈ Finset.Icc 1 g.nodeCount, (spread g t alpha s next u).slopeOf v k =
        (∑ v ∈ Finset.Icc 1 g.nodeCount, next.slopeOf v k) + (1 - alpha) * s.slopeOf u k := by
  have inside := LearningGraph.mem_Icc.2 node
  rw [spread]
  split
  next => exact ⟨fits.add .., DualScores.sum_slopeOf_add fits feature inside _ _ _⟩
  next spreads =>
    obtain ⟨ones, cancel⟩ := conserves u node (Bool.eq_false_of_not_eq_true spreads)
    have targets : ∀ e ∈ g.edgesOf u, g.target e ∈ Finset.Icc 1 g.nodeCount := fun e member =>
      LearningGraph.mem_Icc.2 (wellFormed.target_mem_nodes node member)
    exact ⟨(DualMass.foldl_along_spec fits feature ..).1,
      DualMass.sum_slopeOf_foldl_along fits feature targets ones cancel _ _ _⟩

/-- A round takes `alpha` of the slopes over all nodes. -/
theorem sum_slopeOf_round (wellFormed : e.graph.WellFormed) (conserves : t.Conserves e.graph k)
    (feature : k < e.graph.featureCount) :
    ∑ v ∈ Finset.Icc 1 e.graph.nodeCount, (round e t alpha s).slopeOf v k =
      (1 - alpha) * ∑ v ∈ Finset.Icc 1 e.graph.nodeCount, s.slopeOf v k := by
  have spreads : ∀ (us : List Nat), (∀ u ∈ us, u ∈ e.graph.nodes) → ∀ next : DualScores ℝ,
      next.Fits e.graph.nodeCount e.graph.featureCount →
      ∑ v ∈ Finset.Icc 1 e.graph.nodeCount,
          (us.foldl (spread e.graph t alpha s) next).slopeOf v k =
        (∑ v ∈ Finset.Icc 1 e.graph.nodeCount, next.slopeOf v k) +
          (1 - alpha) * (us.map (s.slopeOf · k)).sum := by
    intro us nodes
    induction us with
    | nil => simp
    | cons u rest ih =>
      intro next fits
      obtain ⟨fits', moved⟩ : (spread e.graph t alpha s next u).Fits _ _ ∧ _ :=
        sum_slopeOf_spread wellFormed conserves feature (nodes u (by simp)) fits
      rw [List.foldl_cons, ih (fun v member => nodes v (List.mem_cons_of_mem _ member)) _ fits', moved,
        List.map_cons, List.sum_cons]
      ring
  obtain ⟨fits, flat⟩ := DualScores.seeded_flat e.graph.nodeCount e.graph.featureCount alpha e.seed
  have distinct : e.graph.nodes.Nodup := List.nodup_range'
  have all : e.graph.nodes.toFinset = Finset.Icc 1 e.graph.nodeCount := by
    ext u
    rw [List.mem_toFinset, LearningGraph.mem_Icc]
  rw [round, spreads _ (fun u member => member) _ fits, Finset.sum_eq_zero fun u _ => flat u k, zero_add,
    ← all, List.sum_toFinset _ distinct]

/-- After every round the slopes over all nodes cancel. -/
theorem sum_slopeOf_walk (wellFormed : e.graph.WellFormed) (conserves : t.Conserves e.graph k)
    (feature : k < e.graph.featureCount) (count : Nat) :
    ∑ v ∈ Finset.Icc 1 e.graph.nodeCount, (walk e t alpha count).slopeOf v k = 0 := by
  have after (s : DualScores ℝ)
      (cancel : ∑ v ∈ Finset.Icc 1 e.graph.nodeCount, s.slopeOf v k = 0) :
      ∑ v ∈ Finset.Icc 1 e.graph.nodeCount, (rounds e t alpha count s).slopeOf v k = 0 := by
    induction count generalizing s with
    | zero => exact cancel
    | succ count ih =>
      refine ih _ ?_
      rw [sum_slopeOf_round wellFormed conserves feature, cancel, mul_zero]
  obtain ⟨-, flat⟩ := DualScores.seeded_flat e.graph.nodeCount e.graph.featureCount (1 : ℝ) e.seed
  exact after _ (Finset.sum_eq_zero fun u _ => flat u k)

end

end Rounds

end ProofWalk
