import ProofWalk.Proofs.Exact
import ProofWalk.Proofs.Grounding.Decoding
import ProofWalk.Proofs.Grounding.Forms
import ProofWalk.Proofs.Learning.Rounds

/-!
# Power iteration of the prover and of the learner

The prover iterates on a graph that grows, and the learner on the graph of the line that has been
grounded, where nodes that have not been asked for their links look as if they kept what reaches them. No
score reaches such a node before the last round, so both give all nodes the same scores.

Neither loses anything, whatever the signs of the weights are: all scores make one after every round, and the
slopes of the learner's scores cancel.

## Main results

* `rounds_eq_powerIteration` — the scores of the learner are those of the prover
* `powerIteration_conserves` — all scores make one, and slopes cancel
-/

namespace ProofWalk

open Finsupp

/-- Power iteration over a map grounds as power iteration does that visits scores in the order of the
map. -/
theorem Grounder.ground_ppr {K : Type} [Scalar K] (r : Grounder) (o : WalkOptions K) (weighter : Weighter K)
    (features : FeatureTable) (e : LabelledExample) :
    r.ground (.new .ppr o weighter) features e =
      ((r.groundBy .state (Walk.powerIn (fun _ scores => scores.toList) weighter.weighting o) features
          e).1.map (·.1),
        (r.groundBy .state (Walk.powerIn (fun _ scores => scores.toList) weighter.weighting o) features
          e).2) := by
  have proves : (Prover.new .ppr o weighter).prove =
      Walk.powerIn (fun _ scores => scores.toList) weighter.weighting o := by
    rw [Prover.prove_ppr, Walk.powerSparse_eq]
  rw [ground_eq, proves]
  rfl

/-- The learner's rounds on a graph that has been read are the prover's on the graph that was grounded. -/
theorem TrainingExample.Mirrors.after_eq {te : TrainingExample} {g : ProofGraph} (mirrors : te.Mirrors g)
    (weighter : Weighter ℝ) {t : Transitions ℝ}
    (loaded : Transitions.load weighter.squash weighter.parameters te.graph = .ok t)
    (node : 1 ∈ te.graph.nodes) (alpha : ℝ) (count : Nat) :
    arrayFinsupp (Rounds.walk te t alpha count).score =
      PowerRound.after alpha 1 (Walk.outlinks weighter.weighting g) count := by
  rw [Rounds.walk_spec loaded mirrors.wellFormed node mirrors.seed]
  exact PowerRound.after_congr (Rounds.closed_nodes mirrors.wellFormed node)
    (fun u inside => mirrors.links weighter u inside) count

/-- Power iteration of the learner gives every node the score that power iteration of the prover gives it,
in whatever order the prover visits the scores in each round, that of its map being one: ground an example,
read the line with the table of the run, and let the learner walk with the same parameters, squashing
function and options. -/
theorem rounds_eq_powerIteration (r : Grounder) (weighter : Weighter ℝ) (o : WalkOptions ℝ) :
    (∀ features e, r.ground (.new .ppr o weighter) features e =
      let grounded := r.groundBy .state
        (Walk.powerIn (fun _ scores => scores.toList) weighter.weighting o) features e
      (grounded.1.map (·.1), grounded.2)) ∧
    ∀ order : Nat → Scores ℝ → List (Nat × ℝ), (∀ n scores, (order n scores).Perm scores.toList) →
      ∀ features : FeatureTable, features.Lawful →
      ∀ text line e, LabelledExample.parse? text line = .ok e →
      ∀ x scores features', r.groundBy .state (Walk.powerIn order weighter.weighting o) features e =
        (.ok (x, scores), features') →
      ∀ table, features'.Interned table →
        (x.graph.store.Fits → ∃ te, TrainingExample.parse? x.line (some table) = .ok te) ∧
        ∀ te, TrainingExample.parse? x.line (some table) = .ok te →
        ∀ t, Transitions.load weighter.squash weighter.parameters te.graph = .ok t →
        ∀ u, (Rounds.walk te t o.alpha o.maxDepth).at_ u = scores.at u := by
  refine ⟨r.ground_ppr o weighter, fun order visits features lawful text line e read x scores features'
    grounded table interned => ?_⟩
  have sound := Grounder.sound_groundBy (Walk.powerIn_keeps order weighter.weighting o) lawful read grounded
  obtain ⟨g, s, made, walked, isGraph, rfl, -⟩ := Grounder.groundBy_eq_ok grounded
  obtain ⟨readable, mirrors⟩ := sound.mirrors interned
  refine ⟨readable, fun te parsed t loaded u => ?_⟩
  have mirror := mirrors te parsed
  have coherent := sound.graph.coherent
  -- the start is the first node
  have startId : Walkable.start g = 1 := (ProofGraph.coherent_new lawful made).1.startId
  have bounds := coherent.isSome_state.1 (by rw [coherent.start]; rfl)
  have node : 1 ∈ te.graph.nodes := by
    refine List.mem_range'_1.2 ⟨le_rfl, ?_⟩
    rw [mirror.nodeCount]
    omega
  have learner := mirror.after_eq weighter loaded node o.alpha o.maxDepth
  have prover := Walk.powerIn_spec visits walked
  rw [← isGraph] at prover
  change scores.toFinsupp = PowerRound.after o.alpha (Walkable.start g) _ _ at prover
  rw [startId, ← learner] at prover
  exact (DFunLike.congr_fun prover u).symm

open ProofGraph in
/-- Both iterate alike on the graph of a fact, in the order of the map and in the opposite order. -/
theorem rounds_eq_powerIteration_fact :
    ∀ order : Nat → Scores ℝ → List (Nat × ℝ),
      order = (fun _ scores => scores.toList) ∨ order = (fun _ scores => scores.toList.reverse) →
      ∃ x scores features' te t,
        factGrounder.groundBy .state (Walk.powerIn order plainWeights.weighting tenths) .empty askFact =
          (.ok (x, scores), features') ∧
        TrainingExample.parse? x.line (some features') = .ok te ∧
        Transitions.load plainWeights.squash plainWeights.parameters te.graph = .ok t ∧
        ∀ u, (Rounds.walk te t tenths.alpha tenths.maxDepth).at_ u = scores.at u := by
  intro order isOrder
  have visits (n : Nat) (scores : Scores ℝ) : (order n scores).Perm scores.toList := by
    rcases isOrder with rfl | rfl
    · exact .refl _
    · exact List.reverse_perm _
  obtain ⟨g, made, isCode, isStart⟩ := exists_factGraph .state .empty
  obtain ⟨g₁, g₂, e₁, e₂, graphs⟩ :=
    exists_factGraphs FeatureTable.lawful_empty ⟨by decide, by decide⟩ made isCode isStart
  obtain ⟨scores, s, walked, asked⟩ := Walk.powerIn_ends visits plainWeights.weighting tenths
    (show Expands (Prover.session g).graph from graphs.expands)
  have checked : askFact.checkLabels = .ok () := by decide +kernel
  have read : LabelledExample.parse? "p(a)\t+p(a)" 1 = .ok askFact := rfl
  obtain ⟨x, grounded, isGraph⟩ : ∃ x, factGrounder.groundBy .state
      (Walk.powerIn order plainWeights.weighting tenths) .empty askFact =
        (.ok (x, scores), x.graph.features) ∧ x.graph = s.graph := by
    unfold Grounder.groundBy
    have makes : ProofGraph.new .state askFact factGrounder.program factGrounder.relations .empty = .ok g :=
      made
    simp only [checked, makes, walked]
    exact ⟨_, rfl, rfl⟩
  have sound := Grounder.sound_groundBy (Walk.powerIn_keeps order plainWeights.weighting tenths)
    FeatureTable.lawful_empty read grounded
  have fits : x.graph.store.Fits := graphs.fits (isGraph ▸ graphs.eq_of_asked asked) sound.graph
  obtain ⟨readable, agree⟩ := (rounds_eq_powerIteration factGrounder plainWeights tenths).2 order visits
    .empty FeatureTable.lawful_empty _ _ _ read x scores _ grounded _ (.refl _)
  obtain ⟨te, parsed⟩ := readable fits
  obtain ⟨t, loaded⟩ := Transitions.exists_load (te.graph.weightOf_relu_nonneg .empty)
  exact ⟨x, scores, _, te, t, grounded, parsed, loaded, agree te parsed t loaded⟩

/-! ### Mass -/

/-- Power iteration loses nothing. All scores of the prover make one after any number of rounds, on every graph
and with every weighting, in whatever order it visits them, that of its map being one. Whenever transitions are
loaded, the probabilities of the edges of a node that spreads make one and their slopes cancel by every feature;
so all scores of the learner make one after any number of rounds that start at a node of the graph, and their
slopes cancel over all nodes. A line that is read starts at the first node, if it has one. -/
theorem powerIteration_conserves :
    (∀ (weighter : Weighter ℝ) (o : WalkOptions ℝ), (Prover.new .ppr o weighter).prove =
      Walk.powerIn (fun _ scores => scores.toList) weighter.weighting o) ∧
    (∀ order : Nat → Scores ℝ → List (Nat × ℝ), (∀ n scores, (order n scores).Perm scores.toList) →
      ∀ (w : Weighting ℝ) (o : WalkOptions ℝ) (s : Session ProofGraph),
        (∀ scores s', Walk.powerIn order w o s = (.ok scores, s') → Scalar.sum scores.values = 1) ∧
        (Expands s.graph → ∃ scores s', Walk.powerIn order w o s = (.ok scores, s'))) ∧
    (∀ line index e, TrainingExample.parse? line index = .ok e →
      e.graph.WellFormed ∧ e.seed = [(1, 1)] ∧ (1 ∈ e.graph.nodes ↔ e.graph.nodeCount ≠ 0)) ∧
    ∀ (squash : Squash) (p : Parameters ℝ) (e : TrainingExample) t, e.graph.WellFormed →
      Transitions.load squash p e.graph = .ok t →
      (∀ u ∈ e.graph.nodes, t.isAbsorbing u = false →
        ((e.graph.edgesOf u).map t.at_).sum = 1 ∧
          ∀ k, ((e.graph.edgesOf u).map fun edge => (t.slopeAt edge).entry k).sum = 0) ∧
      ∀ root ∈ e.graph.nodes, e.seed = [(root, 1)] → ∀ (alpha : ℝ) (count : Nat),
        let s := Rounds.walk e t alpha count
        s.mass = 1 ∧ ∑ u ∈ Finset.Icc 1 e.graph.nodeCount, s.at_ u = 1 ∧
          ∀ k < e.graph.featureCount, ∑ u ∈ Finset.Icc 1 e.graph.nodeCount, s.slopeOf u k = 0 := by
  refine ⟨fun weighter o => ?_, fun order visits w o s => ⟨fun scores s' done => ?_, fun expands => ?_⟩,
    fun line index e parsed => ?_, fun squash p e t wellFormed loaded => ⟨fun u node spreads => ?_,
      fun root node start alpha count => ⟨?_, ?_, fun k feature => ?_⟩⟩⟩
  · rw [Prover.prove_ppr, Walk.powerSparse_eq]
  · rw [← dot_toFinsupp_one, Walk.powerIn_spec visits done]
    exact PowerRound.dot_after_one o.maxDepth
  · obtain ⟨scores, s', done, -⟩ := Walk.powerIn_ends visits w o expands
    exact ⟨scores, s', done⟩
  · obtain ⟨wellFormed, start⟩ := TrainingExample.wellFormed_of_parse? parsed
    refine ⟨wellFormed, start, ?_⟩
    rw [LearningGraph.mem_nodes]
    omega
  · exact ⟨(Transitions.conserves_of_load loaded wellFormed 0 u node spreads).1,
      fun k => (Transitions.conserves_of_load loaded wellFormed k u node spreads).2⟩
  · exact Rounds.mass_walk loaded wellFormed node start count
  · exact Rounds.sum_at_walk loaded wellFormed node start count
  · exact Rounds.sum_slopeOf_walk wellFormed (Transitions.conserves_of_load loaded wellFormed k) feature count

open TrainingExample GradedPush in
/-- Nothing is lost on the forked graph. -/
theorem powerIteration_conserves_forked :
    ∃ t, Transitions.load .relu .empty forked.graph = .ok t ∧ ∀ (alpha : ℝ) (count : Nat),
      (Rounds.walk forked t alpha count).mass = 1 ∧
        ∑ u ∈ Finset.Icc 1 forked.graph.nodeCount, (Rounds.walk forked t alpha count).slopeOf u 0 = 0 := by
  obtain ⟨t, loaded⟩ := Transitions.exists_load (forked.graph.weightOf_relu_nonneg .empty)
  obtain ⟨-, -, -, learner⟩ := powerIteration_conserves
  refine ⟨t, loaded, fun alpha count => ?_⟩
  obtain ⟨mass, -, slopes⟩ :=
    (learner .relu .empty forked t forked_wellFormed loaded).2 1 (by decide) rfl alpha count
  exact ⟨mass, slopes 0 (by decide)⟩

/-- A graph without nodes. -/
def TrainingExample.nodeless : TrainingExample :=
  { query := "q", graph := .ofEdges 0 [] #[] 0, seed := [(1, 1)], pos := [], neg := [] }

/-- A line without nodes is read and its transitions are loaded, but there is nowhere to start. -/
theorem mass_walk_nodeless_ne_one :
    TrainingExample.parse? "q\t\t\t0\t0\t0" none = .ok .nodeless ∧
      ∃ t, Transitions.load .relu (.empty : Parameters ℝ) TrainingExample.nodeless.graph = .ok t ∧
        ∀ (alpha : ℝ) (count : Nat), (Rounds.walk .nodeless t alpha count).mass ≠ 1 := by
  refine ⟨rfl, ⟨#[], #[], #[false]⟩, rfl, fun alpha count => ?_⟩
  have start (scale : ℝ) : (DualScores.seeded 0 0 scale [(1, 1)]).mass = 0 := by
    simp [DualScores.seeded, DualScores.zeros, DualScores.addScore, DualScores.mass, Scalar.sum_real]
  have stays (s : DualScores ℝ) (nothing : s.mass = 0) :
      (Rounds.rounds .nodeless ⟨#[], #[], #[false]⟩ alpha count s).mass = 0 := by
    induction count generalizing s with
    | zero => exact nothing
    | succ count ih => exact ih _ (start alpha)
  have gone : (Rounds.walk .nodeless ⟨#[], #[], #[false]⟩ alpha count).mass = 0 := stays _ (start 1)
  rw [gone]
  exact zero_ne_one

end ProofWalk
