import ProofWalk.Proofs.Grounding.Push
import ProofWalk.Proofs.Learning.Balance
import ProofWalk.Proofs.Prover.Thresholds

/-!
# What a pass of the learner leaves above the threshold

The learner's pass does not go on along edges that lead back to their node, and pushes along edges
without weight as well. Neither lifts a node above the threshold that is not visited once more.

## Main results

* `GradedPush.pass_clears` — what a pass of the learner leaves above the threshold
* `passes_clear` — what the passes of all provers and of the learner leave above it
-/

namespace ProofWalk

section

variable {K : Type} [Scalar K]

namespace DualScores

theorem at_put_of_ne (s : DualScores K) {u v : Nat} (other : v ≠ u) (score : K) (f : K → K) :
    (s.put u score f).at_ v = s.at_ v := by
  rw [at_, put, Array.getElem?_setIfInBounds_ne (Ne.symm other), at_]

theorem at_put_zero (s : DualScores K) (u : Nat) (f : K → K) : (s.put u 0 f).at_ u = 0 := by
  rw [at_, put]
  by_cases inside : u < s.score.size
  · rw [Array.getElem?_setIfInBounds_self_of_lt inside]
    rfl
  · rw [Array.getElem?_eq_none (by rw [Array.size_setIfInBounds]; omega)]
    rfl

end DualScores

variable [LawfulComparison K] {o : WalkOptions K} {g : LearningGraph} {t : Transitions K} {x d : K} {v : Nat}

namespace DualMass

/-- An edge gives a node nothing that lifts it above a threshold, unless it leads there and has a
weight. -/
theorem lt_of_along {scale score : K} {slopes : Array K} {residual : DualScores K} {edge : Nat}
    (weightless : g.target edge = v → (t.at_ edge == 0) = true)
    (above : x < (along g t scale score slopes residual edge).at_ v / d) : x < residual.at_ v / d := by
  rw [DualScores.at_, score_along, Array.getElem?_modify] at above
  split at above
  · rename_i same
    rw [DualScores.at_]
    -- a node that has no score is given none
    rcases found : residual.score[v]? with _ | y <;> rw [found] at above
    · exact above
    · exact LawfulComparison.lt_of_weightless scale score (weightless same) above
  · exact above

/-- A push lifts no other node above a threshold unless an edge with a weight leads there. -/
theorem lt_of_push {u : Nat} (other : v ≠ u)
    (weightless : ∀ edge ∈ g.edgesOf u, g.target edge = v → (t.at_ edge == 0) = true) {m : DualMass K}
    (above : x < (m.push o g t u).residual.at_ v / d) : x < m.residual.at_ v / d := by
  have put := m.residual.at_put_of_ne other ((1 - o.alpha) * o.stay * m.residual.at_ u)
    (· * ((1 - o.alpha) * o.stay))
  rw [← put]
  revert above
  refine List.foldlRecOn (g.edgesOf u) _
    (motive := fun residual : DualScores K => x < residual.at_ v / d → _) id ?_
  exact fun residual before edge member above => before (lt_of_along (weightless edge member) above)

end DualMass

namespace GradedPush

open Recording

variable {e : TrainingExample} {threshold : K}

/-- What a pass does at a node leaves another one below the threshold, or goes on to it. -/
theorem clears_judge (nonneg : ¬threshold < 0) (other : v ≠ startOf e) :
    (judge o e t threshold).Clears v (fun _ => True)
      fun m => threshold < m.residual.at_ v / Scalar.ofNat (max (e.graph.degree v) 1) := by
  intro u m s verdict s' judged _
  refine ⟨trivial, ?_⟩
  unfold judge at judged
  split at judged
  · cases judged
  split at judged
  · rename_i below
    obtain ⟨rfl, -⟩ := pure_eq_ok judged
    rintro rfl
    exact LawfulComparison.not_lt_of_le below
  split at judged
  · obtain ⟨rfl, -⟩ := pure_eq_ok judged
    intro isAbove
    have different : v ≠ u := by
      rintro rfl
      rw [DualMass.absorb, DualScores.at_put_zero] at isAbove
      exact LawfulComparison.not_lt_zero_div _ nonneg isAbove
    rw [DualMass.absorb, DualScores.at_put_of_ne _ different] at isAbove
    exact ⟨isAbove, different⟩
  · obtain ⟨rfl, -⟩ := pure_eq_ok judged
    refine ⟨fun m' stops => ?_, fun different unvisited m' => DualMass.lt_of_push different ?_⟩
    · rintro rfl
      exact of_decide_eq_false stops
    · -- an edge to `v` that is not followed has no weight
      intro edge member leads
      by_contra weight
      refine unvisited (List.mem_map.2 ⟨edge, List.mem_filter.2 ⟨member, ?_⟩, leads⟩)
      rw [leads, decide_eq_false fun skipped => skipped.elim other (Or.elim · different weight)]
      rfl

/-- After a pass from `u` a node other than the start is above the threshold only if it was before, and
is not `u`. -/
theorem pass_clears (unlimited : o.maxTreeDepth = none) (nonneg : ¬threshold < 0)
    {bound limit depth u : Nat} {m : DualMass K} {r : Nat × DualMass K}
    (done : pass o e t bound threshold limit depth u m = .ok r) (other : v ≠ startOf e)
    (isAbove : threshold < r.2.residual.at_ v / Scalar.ofNat (max (e.graph.degree v) 1)) :
    threshold < m.residual.at_ v / Scalar.ofNat (max (e.graph.degree v) 1) ∧ v ≠ u := by
  have runs : ofResult (pass o e t bound threshold limit depth u m) () = (.ok r, ()) :=
    congrArg (·, ()) done
  obtain ⟨record, recorded⟩ := (erases_pass threshold limit depth u m).eq_ok runs []
  exact (Recording.pass_clears (clears_judge nonneg other)
    (fun depth => by rw [WalkOptions.isTooDeep, unlimited]; rfl) recorded trivial).2 isAbove

end GradedPush

/-! ### Every pass -/

/-- A pass leaves no new node above its threshold: of the nodes other than the start, those whose residual
per link is above the threshold afterwards were above it before, and the node that the pass starts from
is not among them. This holds of the pass over maps, the pass over arrays and the pass of the learner,
whatever the weights, the rates and the mass before, and also when residual is rounded, as long as the
depth is not limited. The thresholds of all walks are of the kind that this is said of. -/
theorem passes_clear (o : WalkOptions K) (unlimited : o.maxTreeDepth = none) :
    (∀ k, ¬(tightened o)^[k] (1 : K) < 0) ∧ ∀ threshold : K, ¬threshold < 0 → ∀ bound limit depth u,
      (∀ (w : Weighting K) (s s' : Session ProofGraph) (m : SparseMass K) r,
        Walk.passSparse w o bound threshold limit depth u m s = (.ok r, s') →
        ∀ v n, v ≠ s.graph.startId → (s'.graph.degree v true).1 = .ok n →
          threshold < r.2.residual.at v / Scalar.ofNat n →
          threshold < m.residual.at v / Scalar.ofNat n ∧ v ≠ u) ∧
      (∀ (w : Weighting K) (s s' : Session ProofGraph) (m : DenseMass K) r,
        Walk.passDense w o bound threshold limit depth u m s = (.ok r, s') →
        ∀ v n, v ≠ s.graph.startId → (s'.graph.degree v true).1 = .ok n →
          threshold < entryAt r.2.residual v / Scalar.ofNat n →
          threshold < entryAt m.residual v / Scalar.ofNat n ∧ v ≠ u) ∧
      ∀ (e : TrainingExample) (t : Transitions K) (m : DualMass K) r,
        GradedPush.pass o e t bound threshold limit depth u m = .ok r →
        ∀ v, v ≠ GradedPush.startOf e →
          threshold < r.2.residual.at_ v / Scalar.ofNat (max (e.graph.degree v) 1) →
          threshold < m.residual.at_ v / Scalar.ofNat (max (e.graph.degree v) 1) ∧ v ≠ u := by
  refine ⟨fun k => LawfulComparison.not_lt_of_le (zero_le_iterate_tightened o k),
    fun threshold nonneg bound limit depth u => ⟨fun w s s' m r done v n other degree isAbove => ?_,
      fun w s s' m r done v n other degree isAbove => ?_, fun e t m r done v other isAbove => ?_⟩⟩
  · rw [Walk.passSparse_eq] at done
    exact PushOps.pass_clears (PushOps.local_sparse o) unlimited nonneg done other degree isAbove
  · rw [Walk.passDense_eq] at done
    exact PushOps.pass_clears (PushOps.local_dense o) unlimited nonneg done other degree isAbove
  · exact GradedPush.pass_clears unlimited nonneg done other isAbove

end

open ProofGraph in
/-- The question of a fact is pushed, and its answer, to which residual is passed on, is not above the
threshold after that. -/
theorem passes_clear_fact :
    ∃ g s, halves.maxTreeDepth = none ∧ ¬(3 / 10 : ℝ) < 0 ∧
      Walk.passSparse plainWeights.weighting halves 2 (3 / 10) 2 1 1 (.seed 1) (Prover.session g) =
        (.ok (1, halved), s) ∧
      ∀ v n, v ≠ g.startId → (s.graph.degree v true).1 = .ok n →
        3 / 10 < halved.residual.at v / Scalar.ofNat n →
        3 / 10 < (SparseMass.seed 1 : SparseMass ℝ).residual.at v / Scalar.ofNat n ∧ v ≠ 1 := by
  obtain ⟨g, made, isCode, isStart⟩ := exists_factGraph .state .empty
  obtain ⟨g₁, g₂, e₁, e₂, graphs⟩ :=
    exists_factGraphs FeatureTable.lawful_empty ⟨by decide, by decide⟩ made isCode isStart
  obtain ⟨tally, passed⟩ := graphs.passSparse_halves 0
  have nonneg : ¬(3 / 10 : ℝ) < 0 := by norm_num
  exact ⟨g, _, rfl, nonneg, passed, ((passes_clear halves rfl).2 _ nonneg 2 2 1 1).1 _ _ _ _ _ passed⟩

end ProofWalk
