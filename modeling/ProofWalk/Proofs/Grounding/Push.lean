import ProofWalk.Proofs.Exact
import ProofWalk.Proofs.Grounding.Decoding
import ProofWalk.Proofs.Learning.Retracing

/-!
# Local push of the prover and of the learner

The prover pushes on a graph that grows, and the learner on the graph of the line that has been grounded.
All that the prover has asked for is on that line, so the learner takes the steps of the prover.

## Main results

* `TrainingExample.Mirrors.sees` — a line shows the learner what the prover has seen
* `gradedPush_retraces` — the scores of the learner are those of the prover
-/

namespace ProofWalk

open Finsupp

/-- A line that has been read shows the learner all that a prover has seen of the graph. -/
theorem TrainingExample.Mirrors.sees {te : TrainingExample} {g : ProofGraph} (mirrors : te.Mirrors g)
    (coherent : g.Coherent) {weighter : Weighter ℝ} {t : Transitions ℝ}
    (loaded : Transitions.load weighter.squash weighter.parameters te.graph = .ok t) :
    GradedPush.Sees weighter.squash weighter.parameters te t weighter.weighting g 1 := by
  have bounds := coherent.isSome_state.1 (by rw [coherent.start]; rfl)
  refine ⟨loaded, mirrors.wellFormed, List.mem_range'_1.2 ⟨le_rfl, ?_⟩, mirrors.seed, coherent.startId,
    fun u node links known => ?_⟩
  · rw [mirrors.nodeCount]
    omega
  have same := mirrors.links weighter u node
  rw [known] at same
  refine ⟨same, ?_⟩
  -- there is always the link back to the start
  obtain ⟨shown, isKnown, rfl⟩ := Option.map_eq_some_iff.1 known
  obtain ⟨e, expansion, rfl⟩ := Option.map_eq_some_iff.1 isKnown
  obtain ⟨s, shows⟩ := coherent.shows u e expansion
  obtain ⟨steps, links, -, base, -⟩ := shows.base
  rw [Walk.weighed, Expansion.links, base]
  simp

/-- Options that settle half of what is pushed, and push what is above three tenths. -/
noncomputable def halves : WalkOptions ℝ :=
  { alpha := 1 / (2 : ℕ), epsilon := (3 : ℕ) / (10 : ℕ), maxDepth := 20, stay := 0, maxTreeDepth := none }

/-- The mass with the question pushed once. -/
noncomputable def halved : SparseMass ℝ :=
  SparseMass.push halves 1 [(2, 1), (1, 1)] (2 : ℕ) 1 { settled := ∅, residual := (∅ : Scores ℝ).insert 1 1 }

theorem residual_halved : halved.residual.at 1 = 1 / 4 ∧ halved.residual.at 2 = 1 / 4 := by
  have none (u : Nat) : Scores.at (∅ : Scores ℝ) u = 0 := by
    rw [Scores.at, Std.TreeMap.getElem?_emptyc]
    rfl
  constructor <;>
  · simp [halved, SparseMass.push, halves, Scores.at_add, Scores.at_insert, none]
    norm_num

namespace ProofGraph.FactGraphs

variable {g g₁ g₂ : ProofGraph} {e₁ e₂ : Expansion}

/-- One pass pushes the question once and visits the answer in vain. -/
theorem passSparse_halves (graphs : FactGraphs g g₁ g₂ e₁ e₂) (bound : Nat) :
    ∃ tally, Walk.passSparse plainWeights.weighting halves (bound + 2) (3 / 10) (bound + 2) 1 1
      { settled := ∅, residual := (∅ : Scores ℝ).insert 1 1 } (Prover.session g) =
        (.ok (1, halved), ⟨g₂, tally⟩) := by
  have weighed : Walk.weighed plainWeights.weighting (e₁.links true) = [(2, 1), (1, 1)] := by
    rw [graphs.links₁]
    exact congrArg₂ (fun a b => [(2, a), (1, b)]) (plainWeights_single _) (plainWeights_single _)
  have total : Scalar.sum ([((2 : Nat), (1 : ℝ)), (1, 1)].map (·.2)) = 2 := by
    rw [Scalar.sum_real]
    norm_num
  obtain ⟨t₁, weighs⟩ := Walk.weighLinks_of_expanded plainWeights.weighting graphs.again₁ .zero
  rw [weighed, total] at weighs
  have degree₁ : (Scalar.ofNat (e₁.links true).length : ℝ) = 2 := by
    rw [graphs.links₁]
    exact Nat.cast_ofNat
  have degree₂ : (Scalar.ofNat (e₂.links true).length : ℝ) = 2 := by
    rw [graphs.links₂]
    exact Nat.cast_ofNat
  have asks := Walk.degree_of_expanded (K := ℝ) graphs.first .zero
  have asks₁ := Walk.degree_of_expanded (K := ℝ) graphs.second t₁
  rw [degree₁] at asks
  rw [degree₂] at asks₁
  obtain ⟨atQuestion, atAnswer⟩ := residual_halved
  have atStart : Scores.at ((∅ : Scores ℝ).insert 1 1) 1 = 1 := by rw [Scores.at_insert, if_pos rfl]
  have below : ¬(3 / 10 : ℝ) < 1 / 4 / 2 ∧ (1 / 4 / 2 : ℝ) ≤ 3 / 10 := by norm_num
  -- one push leaves a quarter of the mass at the question, which is below the threshold
  have drained : (PushOps.sparse halves).drain (3 / 10) 2 1 [(2, 1), (1, 1)] 2 (bound + 2)
      { settled := ∅, residual := (∅ : Scores ℝ).insert 1 1 } = some halved := by
    have again : (PushOps.sparse halves).residual halved 1 = 1 / 4 := atQuestion
    have start : (PushOps.sparse halves).residual
        { settled := ∅, residual := (∅ : Scores ℝ).insert 1 1 } 1 = 1 := atStart
    have pushes : (PushOps.sparse halves).push 1 [(2, 1), (1, 1)] 2
        { settled := ∅, residual := (∅ : Scores ℝ).insert 1 1 } = halved := by
      change SparseMass.push halves 1 _ 2 (Scores.at _ 1) _ = _
      rw [atStart, halved, Nat.cast_ofNat]
    rw [PushOps.drain, start, if_pos (by norm_num), pushes, PushOps.drain, again, if_neg below.1]
  have answer : (PushOps.sparse halves).pass plainWeights.weighting halves (bound + 2) (3 / 10)
      (bound + 1) 2 2 halved ⟨g₁, t₁⟩ = (.ok (0, halved), ⟨g₂, t₁⟩) := by
    refine PushOps.pass_of_below rfl asks₁ ?_
    change halved.residual.at 2 / 2 ≤ 3 / 10
    rw [atAnswer]
    exact below.2
  have above : ¬(PushOps.sparse halves).residual
      { settled := ∅, residual := (∅ : Scores ℝ).insert 1 1 } 1 / 2 ≤ 3 / 10 := by
    change ¬Scores.at ((∅ : Scores ℝ).insert 1 1) 1 / 2 ≤ 3 / 10
    rw [atStart]
    norm_num
  refine ⟨t₁, ?_⟩
  rw [Walk.passSparse_eq]
  change (PushOps.sparse halves).pass plainWeights.weighting halves (bound + 2) (3 / 10) (bound + 2) 1 1 _
    ⟨g, .zero⟩ = _
  rw [PushOps.pass_of_above rfl asks above weighs (by simp) drained,
    show Walkable.start g₁ = 1 from graphs.startId₁]
  refine (foldlM_cons_of_ok (PushOps.visit_of_pass (by decide) (by simp) answer) _).trans ?_
  exact foldlM_cons_of_ok (PushOps.visit_of_root rfl) []

end ProofGraph.FactGraphs

end ProofWalk
