import Mathlib
import ProofWalk.Proofs.Exact
import ProofWalk.Proofs.Learning.Balance
import ProofWalk.Proofs.Learning.Gradient

/-!
# Gradients of the learner's push

The slopes that the local push carries along are exact. With the nodes that a walk pushes held fixed,
what is settled and what is residual after each push are functions of the weights of the features, and
their slopes are the partial derivatives of these functions, self-loops, nodes that keep what reaches
them and what stays behind at a push included. Over all nodes the slopes cancel, since a push moves
mass about and loses none.

## Main definitions

* `Transitions.Conserves` — probabilities that make one, and slopes that cancel
* `GradedPush.pushNode` — what happens to a node that is pushed
* `GradedPush.replay` — the mass after nodes have been pushed in turn

## Main results

* `GradedPush.tracks_pushNode` — slopes stay right at a push
* `GradedPush.cancels_pushNode` — slopes that cancel go on to cancel
* `GradedPush.record_eq_replays` — a walk pushes nodes in turn
* `GradedPush.hasPartial_replay` — the slopes after every push of a walk are right and cancel
-/

namespace ProofWalk

open Filter Topology

/-! ### Transitions that lose nothing -/

/-- The probabilities of the edges of a node make one, and their slopes cancel, unless the node keeps
what reaches it. -/
def Transitions.Conserves (t : Transitions ℝ) (g : LearningGraph) (k : Nat) : Prop :=
  ∀ u ∈ g.nodes, t.isAbsorbing u = false →
    ((g.edgesOf u).map t.at_).sum = 1 ∧
      ((g.edgesOf u).map fun e => SparseRow.entry k (t.slopeAt e)).sum = 0

namespace LearningGraph

variable {squash : Squash} {g : LearningGraph} {weights : Array ℝ}

theorem mem_Icc {u : Nat} : u ∈ Finset.Icc 1 g.nodeCount ↔ u ∈ g.nodes := by
  rw [Finset.mem_Icc, mem_nodes]

/-- The transitions of a graph lose nothing. -/
theorem conserves_transitions (wellFormed : g.WellFormed) (regular : g.Regular squash weights) (k : Nat) :
    (g.transitions squash weights).Conserves g k := by
  intro u node spreads
  obtain ⟨absorbing, shares⟩ := (Transitions.ofWeights_spec wellFormed regular).2 u node
  have weighs : g.nodeWeight squash weights u ≠ 0 := of_decide_eq_false (absorbing.symm.trans spreads)
  have probabilities : (g.edgesOf u).map (g.transitions squash weights).at_ =
      (g.edgesOf u).map fun e => g.edgeWeight squash weights e * (g.nodeWeight squash weights u)⁻¹ :=
    List.map_congr_left fun e member => by
      rw [(shares e member).1, (entry_shareOf (k := k) weighs member).1, div_eq_mul_inv]
  have slopes : (g.edgesOf u).map (fun e => SparseRow.entry k ((g.transitions squash weights).slopeAt e)) =
      (g.edgesOf u).map fun e =>
        g.edgeWeight squash weights e * (-(g.nodeWeight squash weights u)⁻¹ ^ 2 *
            SparseRow.entry k (Transitions.totalSlope (g.weighed squash weights u))) +
          squash.derivative (g.edgeScore weights e) * g.edgeSlope k e *
            (g.nodeWeight squash weights u)⁻¹ :=
    List.map_congr_left fun e member => by
      rw [(shares e member).2, (entry_shareOf weighs member).2]
      ring
  have total : ((g.edgesOf u).map (g.edgeWeight squash weights)).sum = g.nodeWeight squash weights u := rfl
  rw [probabilities, slopes, List.sum_map_add, List.sum_map_mul_right, List.sum_map_mul_right,
    List.sum_map_mul_right, total, ← entry_totalSlope]
  constructor
  · exact mul_inv_cancel₀ weighs
  · field_simp
    ring

end LearningGraph

/-! ### Pushes -/

namespace GradedPush

open Recording

/-- What happens to a node that is pushed: it settles all it has if it keeps what reaches it. -/
noncomputable def pushNode (o : WalkOptions ℝ) (g : LearningGraph) (t : Transitions ℝ) (u : Nat)
    (m : DualMass ℝ) : DualMass ℝ :=
  if t.isAbsorbing u then m.absorb u else m.push o g t u

/-- The mass after nodes have been pushed in turn, the latest of which comes first. -/
noncomputable def replay (o : WalkOptions ℝ) (e : TrainingExample) (t : Transitions ℝ) (us : List Nat) :
    DualMass ℝ :=
  us.foldr (pushNode o e.graph t) (seed e)

variable {o : WalkOptions ℝ} {g : LearningGraph} {e : TrainingExample} {t : Transitions ℝ}
  {T : ℝ → Transitions ℝ} {M : ℝ → DualMass ℝ} {m : DualMass ℝ} {θ₀ : ℝ} {nodes features k u : Nat}

/-! ### Sizes -/

/-- Settled and residual scores have slopes for the same nodes and features. -/
structure Sized (m : DualMass ℝ) (nodes features : Nat) : Prop where
  settled : m.settled.Fits nodes features
  residual : m.residual.Fits nodes features

theorem sized_seed (e : TrainingExample) : Sized (seed e) e.graph.nodeCount e.graph.featureCount :=
  ⟨DualScores.fits_zeros _ _, (DualScores.seeded_flat _ _ _ _).1⟩

theorem sized_pushNode (sized : Sized m nodes features) : Sized (pushNode o g t u m) nodes features := by
  have moved {s : DualScores ℝ} (fits : s.Fits nodes features) (scale score : ℝ) (slopes : Array ℝ)
      (edges : List Nat) : (edges.foldl (DualMass.along g t scale score slopes) s).Fits nodes features := by
    induction edges generalizing s with
    | nil => exact fits
    | cons e rest ih => exact ih (DualMass.fits_along fits ..)
  rw [pushNode]
  split
  · exact ⟨sized.settled.add .., sized.residual.put ..⟩
  · exact ⟨sized.settled.add .., moved (sized.residual.put ..) ..⟩

theorem sized_replay (o : WalkOptions ℝ) (e : TrainingExample) (t : Transitions ℝ) (us : List Nat) :
    Sized (replay o e t us) e.graph.nodeCount e.graph.featureCount := by
  induction us with
  | nil => exact sized_seed e
  | cons u rest ih => exact sized_pushNode ih

/-! ### Derivatives -/

/-- Settled and residual scores that vary with the weight of a feature, and whose slopes by it are
derivatives. -/
structure Tracks (M : ℝ → DualMass ℝ) (θ₀ : ℝ) (nodes features k : Nat) : Prop where
  settled : DualScores.Tracks (fun θ => (M θ).settled) θ₀ nodes features k
  residual : DualScores.Tracks (fun θ => (M θ).residual) θ₀ nodes features k

/-- Slopes stay right when a node is pushed. What it has is read before its own slopes decay, so what
comes back along a self-loop is added to what stayed behind. -/
theorem tracks_pushNode (transitions : Transitions.Tracks T θ₀ g k) (feature : k < features)
    (node : u ∈ g.nodes) (mass : Tracks M θ₀ nodes features k) :
    Tracks (fun θ => pushNode o g (T θ) u (M θ)) θ₀ nodes features k := by
  obtain ⟨settled, residual⟩ := mass
  have same := transitions.absorbing u node
  by_cases absorbs : (T θ₀).isAbsorbing u = true
  · have becomes : ∀ᶠ θ in 𝓝 θ₀, pushNode o g (T θ) u (M θ) = (M θ).absorb u :=
      same.mono fun θ equal => if_pos (equal.trans absorbs)
    constructor
    · exact (settled.add feature u 1 residual u).congr
        (becomes.mono fun θ equal => congrArg DualMass.settled equal)
    · exact (residual.put feature u (hasDerivAt_const θ₀ 0)).congr
        (becomes.mono fun θ equal => congrArg DualMass.residual equal)
  · have becomes : ∀ᶠ θ in 𝓝 θ₀, pushNode o g (T θ) u (M θ) = (M θ).push o g (T θ) u :=
      same.mono fun θ equal => if_neg fun absorbs' => absorbs (equal.symm.trans absorbs')
    constructor
    · exact (settled.add feature u o.alpha residual u).congr
        (becomes.mono fun θ equal => congrArg DualMass.settled equal)
    · have kept := residual.put feature u (f := (· * ((1 - o.alpha) * o.stay))) (by
        refine ((residual.derivative u).const_mul ((1 - o.alpha) * o.stay)).congr_deriv ?_
        ring)
      exact (kept.foldl_along feature ((1 - o.alpha) * (1 - o.stay)) residual g u
        (transitions.derivative u node)).congr
          (becomes.mono fun θ equal => congrArg DualMass.residual equal)

theorem flat_seed (e : TrainingExample) (u k : Nat) :
    (seed e : DualMass ℝ).settled.slopeOf u k = 0 ∧ (seed e : DualMass ℝ).residual.slopeOf u k = 0 :=
  ⟨DualScores.slopeOf_zeros u, (DualScores.seeded_flat _ _ _ _).2 u k⟩

/-- Whichever nodes are pushed, the slopes are derivatives. -/
theorem tracks_replay (transitions : Transitions.Tracks T θ₀ e.graph k)
    (feature : k < e.graph.featureCount) {us : List Nat} (among : ∀ u ∈ us, u ∈ e.graph.nodes) :
    Tracks (fun θ => replay o e (T θ) us) θ₀ e.graph.nodeCount e.graph.featureCount k := by
  induction us with
  | nil =>
    obtain ⟨settled, residual⟩ := sized_seed e
    exact ⟨.const settled fun u => (flat_seed e u k).1, .const residual fun u => (flat_seed e u k).2⟩
  | cons u rest ih =>
    exact tracks_pushNode transitions feature (among u (by simp))
      (ih fun v member => among v (List.mem_cons_of_mem _ member))

/-! ### Slopes over all nodes -/

/-- The slopes of settled and residual scores together, over all nodes. -/
noncomputable def slopeSum (g : LearningGraph) (k : Nat) (m : DualMass ℝ) : ℝ :=
  ∑ u ∈ Finset.Icc 1 g.nodeCount, (m.settled.slopeOf u k + m.residual.slopeOf u k)

private theorem sum_put {s : DualScores ℝ} (fits : s.Fits g.nodeCount features) (feature : k < features)
    (node : u ∈ Finset.Icc 1 g.nodeCount) (x : ℝ) (f : ℝ → ℝ) :
    ∑ v ∈ Finset.Icc 1 g.nodeCount, (s.put u x f).slopeOf v k =
      (∑ v ∈ Finset.Icc 1 g.nodeCount, s.slopeOf v k) + (f (s.slopeOf u k) - s.slopeOf u k) := by
  have gain : ∀ v ∈ Finset.Icc 1 g.nodeCount, (s.put u x f).slopeOf v k =
      s.slopeOf v k + if u = v ∧ v ≤ g.nodeCount then f (s.slopeOf u k) - s.slopeOf u k else 0 := by
    intro v _
    rw [DualScores.slopeOf_put fits feature]
    split
    · rename_i here
      rw [here.1, add_sub_cancel]
    · rw [add_zero]
  rw [Finset.sum_congr rfl gain]
  exact sum_gain node _ _

/-- A push moves slopes about and loses none. -/
theorem slopeSum_pushNode (wellFormed : g.WellFormed) (conserves : t.Conserves g k) (feature : k < features)
    (node : u ∈ g.nodes) (sized : Sized m g.nodeCount features) :
    slopeSum g k (pushNode o g t u m) = slopeSum g k m := by
  obtain ⟨settled, residual⟩ := sized
  have inside := LearningGraph.mem_Icc.2 node
  unfold slopeSum pushNode
  rw [Finset.sum_add_distrib, Finset.sum_add_distrib]
  by_cases absorbs : t.isAbsorbing u = true
  · rw [if_pos absorbs, DualMass.absorb, DualScores.sum_slopeOf_add settled feature inside,
      sum_put residual feature inside]
    change _ + 1 * m.residual.slopeOf u k + _ = _
    ring
  · obtain ⟨ones, cancel⟩ := conserves u node (Bool.eq_false_of_not_eq_true absorbs)
    have targets : ∀ e ∈ g.edgesOf u, g.target e ∈ Finset.Icc 1 g.nodeCount := fun e member =>
      LearningGraph.mem_Icc.2 (wellFormed.target_mem_nodes node member)
    rw [if_neg absorbs, DualMass.push, DualScores.sum_slopeOf_add settled feature inside,
      DualMass.sum_slopeOf_foldl_along (residual.put ..) feature targets ones cancel,
      sum_put residual feature inside]
    change _ + o.alpha * m.residual.slopeOf u k +
      (_ + _ + (1 - o.alpha) * (1 - o.stay) * m.residual.slopeOf u k) = _
    ring

/-- Whichever nodes are pushed, the slopes cancel. -/
theorem slopeSum_replay (wellFormed : e.graph.WellFormed) (conserves : t.Conserves e.graph k)
    (feature : k < e.graph.featureCount) {us : List Nat} (among : ∀ u ∈ us, u ∈ e.graph.nodes) :
    slopeSum e.graph k (replay o e t us) = 0 := by
  induction us with
  | nil =>
    refine Finset.sum_eq_zero fun u _ => ?_
    obtain ⟨settled, residual⟩ := flat_seed e u k
    change (seed e : DualMass ℝ).settled.slopeOf u k + (seed e : DualMass ℝ).residual.slopeOf u k = 0
    rw [settled, residual, add_zero]
  | cons u rest ih =>
    refine (slopeSum_pushNode wellFormed conserves feature (among u (by simp))
      (sized_replay o e t rest)).trans ?_
    exact ih fun v member => among v (List.mem_cons_of_mem _ member)

/-! ### The nodes that a walk pushes -/

/-- The steps of the walk are pushes of nodes. -/
noncomputable def pushWorld (o : WalkOptions ℝ) (g : LearningGraph) (t : Transitions ℝ) :
    World Unit (DualMass ℝ) where
  grows _ _ := True
  met _ u := u ∈ g.nodes
  step _ m m' := ∃ u ∈ g.nodes, m' = pushNode o g t u m
  grows_refl _ := trivial
  grows_trans _ _ := trivial
  met_mono _ met := met
  step_mono _ step := step

/-- What a pass does at a node is to push it. -/
theorem lawful_judge_pushWorld (wellFormed : e.graph.WellFormed) (threshold : ℝ) :
    (judge o e t threshold).Lawful (pushWorld o e.graph t) := by
  refine ⟨fun m met => trivial, fun {s u m v} node given => ?_⟩
  have inside := (LearningGraph.mem_nodes.1 node).2
  unfold judge at given
  simp only [if_neg (Nat.not_lt.2 inside)] at given
  split at given
  · cases given
    trivial
  rename_i exceeds
  split at given
  · rename_i absorbs
    cases given
    exact ⟨u, node, (if_pos absorbs).symm⟩
  · rename_i spreads
    cases given
    refine ⟨decide_eq_true (not_le.1 exceeds), fun m' _ => ⟨u, node, (if_neg spreads).symm⟩, ?_⟩
    intro v member
    obtain ⟨edge, filtered, rfl⟩ := List.mem_map.1 member
    exact wellFormed.target_mem_nodes node (List.mem_filter.1 filtered).1

/-- The walk pushes nodes from the start on, one after the other. -/
theorem isRecord_pushWorld (o : WalkOptions ℝ) (t : Transitions ℝ) (bound : Nat)
    (wellFormed : e.graph.WellFormed) (seeds : ∀ start ∈ e.seed, start.1 ∈ e.graph.nodes) :
    IsRecord (pushWorld o e.graph t) (seed e) (recordWalk o e t bound)
      (ofResult (walk o e t bound)) () := by
  refine isRecord_of_reaches erases_recordWalk ?_
  refine tighten_reaches (fun threshold => lawful_judge_pushWorld wellFormed _) bound
    (fun u member => ?_) bound 1 _
  obtain ⟨start, isStart, rfl⟩ := List.mem_map.1 member
  exact seeds start isStart

/-- The record of a walk is what it comes to by pushing nodes in turn. -/
theorem record_eq_replays {recorded : Recording Unit (DualMass ℝ) (DualMass ℝ)}
    {walk : ExceptT Error (StateM Unit) (DualMass ℝ)}
    (isRecord : IsRecord (pushWorld o e.graph t) (seed e) recorded walk ()) :
    ∃ us : List Nat, (∀ u ∈ us, u ∈ e.graph.nodes) ∧
      recorded.record () = us.tails.map (replay o e t) := by
  obtain ⟨-, -, first, -, chained⟩ := isRecord
  generalize recorded.record () = record at first chained
  induction record with
  | nil => cases first
  | cons latest past ih =>
    cases past with
    | nil =>
      obtain rfl : latest = seed e := Option.some.inj first
      exact ⟨[], List.forall_mem_nil _, rfl⟩
    | cons m rest =>
      obtain ⟨⟨u, node, pushed⟩, chained⟩ := List.isChain_cons_cons.1 chained
      obtain ⟨us, among, same⟩ := ih ((List.getLast?_cons_cons ..).symm.trans first) chained
      refine ⟨u :: us, List.forall_mem_cons.2 ⟨node, among⟩, ?_⟩
      rw [List.tails_cons, List.map_cons, same]
      refine congrArg (· :: _) (pushed.trans ?_)
      have before : m = replay o e t us := by
        have heads := congrArg List.head? same
        cases us <;> exact Option.some.inj heads
      rw [before]
      rfl

/-- Where a graph is smooth, every walk pushes nodes in turn, and whichever nodes are pushed, the slopes of
what is settled and of what is residual are their partial derivatives and cancel over all nodes. -/
theorem hasPartial_replay {squash : Squash} {p : Parameters ℝ} (wellFormed : e.graph.WellFormed)
    (smooth : e.graph.Smooth squash (e.graph.weights squash p))
    (seeds : ∀ start ∈ e.seed, start.1 ∈ e.graph.nodes) (o : WalkOptions ℝ) :
    ∃ t, Transitions.load squash p e.graph = .ok t ∧
      (∀ bound, IsRecord (pushWorld o e.graph t) (seed e) (recordWalk o e t bound)
          (ofResult (walk o e t bound)) () ∧
        ∃ us : List Nat, (∀ u ∈ us, u ∈ e.graph.nodes) ∧
          (recordWalk o e t bound).record () = us.tails.map (replay o e t)) ∧
      ∀ us : List Nat, (∀ u ∈ us, u ∈ e.graph.nodes) → ∀ k < e.graph.featureCount,
        (∀ u ∈ e.graph.nodes,
          (∃ d, ((replay o e t us).settled.slopesAt u)[k]? = some d ∧
            e.graph.HasPartial squash p k (fun t => (replay o e t us).settled.at_ u) d) ∧
          ∃ d, ((replay o e t us).residual.slopesAt u)[k]? = some d ∧
            e.graph.HasPartial squash p k (fun t => (replay o e t us).residual.at_ u) d) ∧
        ∑ u ∈ Finset.Icc 1 e.graph.nodeCount,
          ((replay o e t us).settled.slopeOf u k + (replay o e t us).residual.slopeOf u k) = 0 := by
  obtain ⟨t, loaded, varies⟩ := smooth.exists_load wellFormed
  refine ⟨t, loaded, fun bound => ?_, fun us among k feature => ⟨fun u node => ?_, ?_⟩⟩
  · have isRecord := isRecord_pushWorld o t bound wellFormed seeds
    exact ⟨isRecord, record_eq_replays isRecord⟩
  · obtain ⟨T, θ₀, rfl, transitions, hasPartial⟩ := varies k feature
    obtain ⟨settled, residual⟩ := tracks_replay (o := o) transitions feature among
    have inside := (LearningGraph.mem_nodes.1 node).2
    obtain ⟨d, here, derivative⟩ := settled.exists_slope feature inside
    obtain ⟨d', here', derivative'⟩ := residual.exists_slope feature inside
    exact ⟨⟨d, here, hasPartial _ d derivative⟩, d', here', hasPartial _ d' derivative'⟩
  · have conserves := LearningGraph.conserves_transitions wellFormed smooth.regular k
    have same : t = e.graph.transitions squash (e.graph.weights squash p) := Except.ok.inj
      (loaded.symm.trans (Transitions.ofWeights_spec wellFormed smooth.regular).1)
    rw [← same] at conserves
    exact slopeSum_replay wellFormed conserves feature among

/-- Options under which half of a push stays behind. -/
noncomputable def wavering : WalkOptions ℝ :=
  { alpha := Loss.half, epsilon := Loss.half, maxDepth := 1, stay := Loss.half, maxTreeDepth := none }

open TrainingExample in
/-- Slopes are right and cancel when the nodes of the forked graph are pushed to and fro. -/
theorem hasPartial_replay_forked :
    forked.graph.WellFormed ∧ forked.graph.Smooth .relu (forked.graph.weights .relu .empty) ∧
      (∀ start ∈ forked.seed, start.1 ∈ forked.graph.nodes) ∧
      ∃ t, Transitions.load .relu .empty forked.graph = .ok t ∧
        (∃ us : List Nat, (recordWalk wavering forked t 100).record () =
          us.tails.map (replay wavering forked t)) ∧
        (∃ d, ((replay wavering forked t [1, 2, 1]).residual.slopesAt 2)[0]? = some d ∧
          forked.graph.HasPartial .relu .empty 0
            (fun t => (replay wavering forked t [1, 2, 1]).residual.at_ 2) d) ∧
        ∑ u ∈ Finset.Icc 1 forked.graph.nodeCount,
          ((replay wavering forked t [1, 2, 1]).settled.slopeOf u 0 +
            (replay wavering forked t [1, 2, 1]).residual.slopeOf u 0) = 0 := by
  have seeds : ∀ start ∈ forked.seed, start.1 ∈ forked.graph.nodes := by
    intro start member
    rw [List.mem_singleton.1 member]
    decide
  obtain ⟨t, loaded, walks, partials⟩ :=
    hasPartial_replay forked_wellFormed forked_smooth seeds wavering
  obtain ⟨-, us, -, recorded⟩ := walks 100
  obtain ⟨slopes, cancel⟩ := partials [1, 2, 1] (by decide) 0 (by decide)
  exact ⟨forked_wellFormed, forked_smooth, seeds, t, loaded, ⟨us, recorded⟩, (slopes 2 (by decide)).2,
    cancel⟩

end GradedPush

end ProofWalk
