import ProofWalk.Proofs.Exact
import ProofWalk.Proofs.Learning.Balance
import ProofWalk.Proofs.ProofGraph.Recorded
import ProofWalk.Proofs.Prover.Work
import ProofWalk.Prover.Basic

/-!
# The work of all walks by local push

The walk of the learner settles as much with every push as the provers' walks do, and it always finds the
nodes that it asks for. So there is one bound on the pushes of every walk, and every walk ends.

## Main results

* `pushes_bounded` — settled mass pays for all pushes, and every walk ends
-/

namespace ProofWalk

namespace GradedPush

open Recording

variable {o : WalkOptions ℝ} {e : TrainingExample} {t : Transitions ℝ} {squash : Squash}
  {p : Parameters ℝ}

/-- The links of nodes have no negative weight if no edge has one. -/
theorem out_nonneg {g : LearningGraph} (weights : ∀ edge, 0 ≤ g.weightOf squash p edge) :
    ∀ u links, g.out squash p u = some links → ∀ l ∈ links, 0 ≤ l.2 := by
  intro u links known l member
  unfold LearningGraph.out at known
  split at known
  · cases known
    obtain ⟨edge, -, rfl⟩ := List.mem_map.1 member
    exact weights edge
  · cases known

theorem judge_answers (threshold : ℝ) (s : Unit) :
    (judge o e t threshold).Answers (world squash p o e.graph) s := by
  intro s' _ u node m
  have inside : ¬ e.graph.nodeCount < u := by
    have bounds := List.mem_range'_1.1 node
    omega
  unfold judge
  simp only [if_neg inside]
  split
  · exact ⟨_, rfl⟩
  split
  · exact ⟨_, rfl⟩
  · exact ⟨_, rfl⟩

/-- The walk ends if its bound is large enough. -/
theorem walk_finishes (checked : o.check = .ok ()) (alpha : 0 < o.alpha)
    (weights : ∀ edge, 0 ≤ e.graph.weightOf squash p edge)
    (loaded : Transitions.load squash p e.graph = .ok t) (wellFormed : e.graph.WellFormed) {root : Nat}
    (node : root ∈ e.graph.nodes) (start : e.seed = [(root, 1)]) :
    ∃ enough, ∀ bound, enough ≤ bound → ∃ m, walk o e t bound = .ok m := by
  have positive := (WalkOptions.bounds_of_check checked).2.2
  obtain ⟨n, reaches⟩ := Recording.exists_reaches positive 1
  have inside : root ≤ e.graph.nodeCount := by
    have bounds := List.mem_range'_1.1 node
    omega
  obtain ⟨fits, ledger⟩ := ledger_seed inside start
  refine ⟨n + (seed e : DualMass ℝ).ledger.left o + 1, fun bound enough => ?_⟩
  have spends : (world squash p o e.graph).Spends (fun m => m.Fits e.graph ∧ m.ledger.Sound)
      fun m => m.ledger.left o := by
    intro _ m m' step good
    obtain ⟨fits', pushes⟩ := step good.1
    exact ⟨⟨fits', (pushes.sound checked (out_nonneg weights) good.2).1⟩,
      pushes.left_lt checked alpha (out_nonneg weights) good.2⟩
  have finishes : Ends (Recording.tighten (judge o e t) o bound (e.seed.map (·.1)) bound 1 (seed e)) ()
      [seed e] fun r _ _ => ∃ m, r = .ok m := by
    refine tighten_finishes positive
      (fun threshold => lawful_judge loaded wellFormed (Walk.epsilon_le_tightened threshold))
      (fun threshold => judge_answers threshold ()) spends (fun u member => ?_) reaches
      ⟨fits, ?_⟩ (by omega) (by omega)
    · rw [start] at member
      rwa [List.mem_singleton.1 member]
    · rw [ledger]
      exact Ledger.sound_single _
  obtain ⟨m, done⟩ := finishes
  have erases : (recordWalk o e t bound).Erases (ofResult (walk o e t bound)) := erases_recordWalk
  exact ⟨m, (erases () []).1.symm.trans done⟩

end GradedPush

namespace Walk

open Recording

variable {Γ M : Type} [Walkable Γ] [KnowsLinks Γ] [LawfulWalkable Γ] {o : WalkOptions ℝ}
  {w : Weighting ℝ}

/-- What settles on a walk pays for its pushes. -/
theorem bounded (checked : o.check = .ok ()) (weights : ∀ f, 0 ≤ w.weight f) {ledger : M → Ledger}
    {seed : M} {root : Nat}
    (start : ledger seed = { settled := 0, residual := Finsupp.single root 1 })
    {recorded : Recording (Session Γ) M M} {walk : Walk Γ M} {s : Session Γ}
    (isRecord : IsRecord (world ledger o w) seed recorded walk s) : recorded.Bounded ledger o s :=
  bounded_of_isRecord (fun m => (ledger m).Sound) checked isRecord
    (by rw [start]; exact Ledger.sound_single root) id
    fun step sound => step.sound checked (outOf_nonneg weights) sound

end Walk

/-- At every moment of every walk by local push with options within bounds and without negative weights,
no amount is negative, and what has settled is at most one and at least `alpha` times `epsilon` for every
push so far, however large the graph is. So with a positive `alpha` there are at most
`1 / (alpha * epsilon)` pushes, and the walk ends on every graph that always gives links. This holds of
the walk over maps, the walk over arrays, the walk by priority and the walk of the learner. -/
theorem pushes_bounded (o : WalkOptions ℝ) (checked : o.check = .ok ()) :
    (∀ w : Weighting ℝ, (∀ f, 0 ≤ w.weight f) → ∀ s : Session ProofGraph,
      (∀ bound,
        Recording.IsRecord (Walk.world SparseMass.ledger o w) (.seed s.graph.startId)
            (Walk.recordSparse w o bound) (Walk.pushSparse w o bound) s ∧
          (Walk.recordSparse w o bound).Bounded SparseMass.ledger o s) ∧
        (0 < o.alpha → Expands s.graph →
          ∃ enough, ∀ bound, enough ≤ bound → ∃ m, (Walk.pushSparse w o bound s).1 = .ok m)) ∧
    (∀ w : Weighting ℝ, (∀ f, 0 ≤ w.weight f) → ∀ s : Session ProofGraph,
      (∀ bound,
        Recording.IsRecord (Walk.world DenseMass.ledger o w) (.seed s.graph.startId)
            (Walk.recordDense w o bound) (Walk.pushDense w o bound) s ∧
          (Walk.recordDense w o bound).Bounded DenseMass.ledger o s) ∧
        (0 < o.alpha → Expands s.graph →
          ∃ enough, ∀ bound, enough ≤ bound → ∃ m, (Walk.pushDense w o bound s).1 = .ok m)) ∧
    (∀ w : Weighting ℝ, (∀ f, 0 ≤ w.weight f) → ∀ s : Session ProofGraph,
      (∀ bound,
        Recording.IsRecord (Walk.world DenseMass.ledger o w) (.seed s.graph.startId)
            (Walk.recordByPriority w o bound) (Walk.pushByPriority w o bound) s ∧
          (Walk.recordByPriority w o bound).Bounded DenseMass.ledger o s) ∧
        (0 < o.alpha → Expands s.graph →
          ∃ enough, ∀ bound, enough ≤ bound → ∃ m, (Walk.pushByPriority w o bound s).1 = .ok m)) ∧
    ∀ (squash : Squash) (p : Parameters ℝ) (e : TrainingExample) t root,
      (∀ edge, 0 ≤ e.graph.weightOf squash p edge) → e.graph.WellFormed → root ∈ e.graph.nodes →
      e.seed = [(root, 1)] → Transitions.load squash p e.graph = .ok t →
      (∀ bound,
        Recording.IsRecord (GradedPush.world squash p o e.graph) (GradedPush.seed e)
            (GradedPush.recordWalk o e t bound)
            (GradedPush.ofResult (GradedPush.walk o e t bound)) () ∧
          (GradedPush.recordWalk o e t bound).Bounded DualMass.ledger o ()) ∧
        (0 < o.alpha →
          ∃ enough, ∀ bound, enough ≤ bound → ∃ m, GradedPush.walk o e t bound = .ok m) := by
  refine ⟨fun w weights s => ⟨fun bound => ?_, fun alpha expands => ?_⟩,
    fun w weights s => ⟨fun bound => ?_, fun alpha expands => ?_⟩,
    fun w weights s => ⟨fun bound => ?_, fun alpha expands => ?_⟩, ?_⟩
  · have isRecord := Walk.isRecord_sparse w o bound s
    exact ⟨isRecord, Walk.bounded checked weights (SparseMass.ledger_seed _) isRecord⟩
  · exact Walk.pushSparse_finishes checked alpha weights expands
  · have isRecord := Walk.isRecord_dense w o bound s
    exact ⟨isRecord, Walk.bounded checked weights (DenseMass.ledger_seed _) isRecord⟩
  · exact Walk.pushDense_finishes checked alpha weights expands
  · have isRecord := Walk.isRecord_byPriority w o bound s
    exact ⟨isRecord, Walk.bounded checked weights (DenseMass.ledger_seed _) isRecord⟩
  · exact Walk.pushByPriority_finishes checked alpha weights expands
  · intro squash p e t root weights wellFormed node start loaded
    refine ⟨fun bound => ?_, fun alpha =>
      GradedPush.walk_finishes checked alpha weights loaded wellFormed node start⟩
    have isRecord := GradedPush.isRecord_walk o bound loaded wellFormed node start
    have inside : root ≤ e.graph.nodeCount := by
      have bounds := List.mem_range'_1.1 node
      omega
    obtain ⟨fits, ledger⟩ := GradedPush.ledger_seed inside start
    refine ⟨isRecord, ?_⟩
    refine Recording.bounded_of_isRecord (fun m => m.Fits e.graph ∧ m.ledger.Sound) checked isRecord
      ⟨fits, ?_⟩ And.right ?_
    · rw [ledger]
      exact Ledger.sound_single root
    · intro m m' step good
      obtain ⟨fits', pushes⟩ := step good.1
      obtain ⟨sound, settles⟩ := pushes.sound checked (GradedPush.out_nonneg weights) good.2
      exact ⟨⟨fits', sound⟩, settles⟩

theorem check_tenths : tenths.check = .ok () := by
  unfold WalkOptions.check tenths
  norm_num

/-- The walk over the graph of a fact ends, and so does the walk of the learner over two nodes that lead to
each other. -/
theorem pushes_bounded_fact :
    ∃ g, ProofGraph.new .state ProofGraph.askFact ProofGraph.factProgram [] .empty = .ok g ∧
      (∃ bound m, (Walk.pushSparse equalWeights tenths bound (Prover.session g)).1 = .ok m) ∧
      ∃ t, Transitions.load .relu .empty pairExample.graph = .ok t ∧
        ∃ bound m, GradedPush.walk tenths pairExample t bound = .ok m := by
  obtain ⟨g, made, isCode, isStart⟩ := ProofGraph.exists_factGraph .state .empty
  obtain ⟨g₁, g₂, e₁, e₂, graphs⟩ :=
    ProofGraph.exists_factGraphs FeatureTable.lawful_empty ⟨by decide, by decide⟩ made isCode isStart
  have alpha : 0 < tenths.alpha := by norm_num [tenths]
  have walks := pushes_bounded tenths check_tenths
  obtain ⟨enough, ends⟩ := (walks.1 equalWeights (fun _ => zero_le_one) (Prover.session g)).2 alpha
    graphs.expands
  obtain ⟨t, loaded⟩ := Transitions.exists_load (pairExample.graph.weightOf_relu_nonneg .empty)
  obtain ⟨enough', ends'⟩ := (walks.2.2.2 .relu .empty pairExample t 1
    (pairExample.graph.weightOf_relu_nonneg .empty) wellFormed_pairExample (by decide) rfl loaded).2 alpha
  exact ⟨g, made, ⟨enough, ends enough le_rfl⟩, t, loaded, enough', ends' enough' le_rfl⟩

end ProofWalk
