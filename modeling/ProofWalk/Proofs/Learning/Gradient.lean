import Mathlib
import ProofWalk.Proofs.Exact
import ProofWalk.Learning.Loss
import ProofWalk.Proofs.Learning.Smooth

/-!
# Gradients of walks and losses

The learner's gradient is the true gradient. Over the reals, where a graph is smooth, the slopes of the
scores after any number of rounds are their partial derivatives by the weights of the features, and so
are the slopes of a loss, as long as no score of a labelled node is cut off.

## Main definitions

* `Loss.Inside` — the labelled scores at which a loss has a derivative

## Main results

* `Rounds.tracks_walk` — slopes stay right in every round
* `Loss.hasDerivAt_evaluate` — the slopes of a loss are right if those of the scores are
-/

namespace ProofWalk

open Filter Topology

/-! ### Rounds -/

namespace DualScores

variable {nodes features k : Nat}

theorem fits_zeros (nodes features : Nat) : (zeros nodes features : DualScores ℝ).Fits nodes features :=
  ⟨Array.size_replicate, Array.size_replicate, fun row member => by
    rw [(Array.mem_replicate.1 member).2]
    exact Array.size_replicate⟩

theorem slopeOf_zeros (u : Nat) : (zeros nodes features : DualScores ℝ).slopeOf u k = 0 := by
  rw [slopeOf, slopesAt, zeros, Array.getElem?_replicate]
  split
  · rw [Option.getD_some, Array.getElem?_replicate]
    split <;> rfl
  · rfl

/-- What starts a walk has a score for every node, and no slopes. -/
theorem seeded_flat (nodes features : Nat) (scale : ℝ) (seed : List (Nat × Float)) :
    (seeded nodes features scale seed).Fits nodes features ∧
      ∀ u k, (seeded nodes features scale seed).slopeOf u k = 0 := by
  have added (s : DualScores ℝ) (fits : s.Fits nodes features) (flat : ∀ u k, s.slopeOf u k = 0) :
      (seed.foldl (fun s start => s.addScore start.1 (scale * Scalar.ofFloat start.2)) s).Fits nodes
          features ∧
        ∀ u k, (seed.foldl (fun s start =>
          s.addScore start.1 (scale * Scalar.ofFloat start.2)) s).slopeOf u k = 0 := by
    induction seed generalizing s with
    | nil => exact ⟨fits, flat⟩
    | cons start rest ih =>
      exact ih _ ⟨(Array.size_modify ..).trans fits.score, fits.slope, fits.row⟩ flat
  exact added _ (fits_zeros nodes features) fun _ _ => slopeOf_zeros _

end DualScores

namespace Rounds

open DualScores

variable {e : TrainingExample} {T : ℝ → Transitions ℝ} {S N : ℝ → DualScores ℝ} {θ₀ alpha : ℝ} {k : Nat}

/-- Slopes stay right when a node passes on what it has. -/
theorem tracks_spread (transitions : Transitions.Tracks T θ₀ e.graph k)
    (feature : k < e.graph.featureCount) {u : Nat} (node : u ∈ e.graph.nodes)
    (scores : DualScores.Tracks S θ₀ e.graph.nodeCount e.graph.featureCount k)
    (next : DualScores.Tracks N θ₀ e.graph.nodeCount e.graph.featureCount k) :
    DualScores.Tracks (fun θ => spread e.graph (T θ) alpha (S θ) (N θ) u) θ₀ e.graph.nodeCount
      e.graph.featureCount k := by
  have same := transitions.absorbing u node
  by_cases absorbs : (T θ₀).isAbsorbing u = true
  · refine (next.add feature u (1 - alpha) scores u).congr (same.mono fun θ equal => ?_)
    rw [spread, if_pos (equal.trans absorbs)]
  · refine (next.foldl_along feature (1 - alpha) scores e.graph u
      (transitions.derivative u node)).congr (same.mono fun θ equal => ?_)
    rw [spread, if_neg (fun absorbs' => absorbs (equal.symm.trans absorbs'))]
    rfl

theorem tracks_round (transitions : Transitions.Tracks T θ₀ e.graph k)
    (feature : k < e.graph.featureCount)
    (scores : DualScores.Tracks S θ₀ e.graph.nodeCount e.graph.featureCount k) :
    DualScores.Tracks (fun θ => round e (T θ) alpha (S θ)) θ₀ e.graph.nodeCount
      e.graph.featureCount k := by
  have passed (us : List Nat) (among : ∀ u ∈ us, u ∈ e.graph.nodes) {N : ℝ → DualScores ℝ}
      (next : DualScores.Tracks N θ₀ e.graph.nodeCount e.graph.featureCount k) :
      DualScores.Tracks (fun θ => us.foldl (spread e.graph (T θ) alpha (S θ)) (N θ)) θ₀
        e.graph.nodeCount e.graph.featureCount k := by
    induction us generalizing N with
    | nil => exact next
    | cons u rest ih =>
      exact ih (fun v member => among v (List.mem_cons_of_mem _ member))
        (tracks_spread transitions feature (among u (by simp)) scores next)
  obtain ⟨fits, flat⟩ := seeded_flat e.graph.nodeCount e.graph.featureCount alpha e.seed
  exact passed _ (fun u node => node) (.const fits fun u => flat u k)

/-- After any number of rounds the slopes are derivatives. -/
theorem tracks_walk (transitions : Transitions.Tracks T θ₀ e.graph k)
    (feature : k < e.graph.featureCount) (alpha : ℝ) (count : Nat) :
    DualScores.Tracks (fun θ => walk e (T θ) alpha count) θ₀ e.graph.nodeCount
      e.graph.featureCount k := by
  have after {S : ℝ → DualScores ℝ}
      (scores : DualScores.Tracks S θ₀ e.graph.nodeCount e.graph.featureCount k) :
      DualScores.Tracks (fun θ => rounds e (T θ) alpha count (S θ)) θ₀ e.graph.nodeCount
        e.graph.featureCount k := by
    induction count generalizing S with
    | zero => exact scores
    | succ count ih => exact ih (tracks_round transitions feature scores)
  obtain ⟨fits, flat⟩ := seeded_flat e.graph.nodeCount e.graph.featureCount (1 : ℝ) e.seed
  exact after (.const fits fun u => flat u k)

end Rounds

/-! ### Losses -/

namespace Loss

open Float.Model in
/-- The number that the bound on scores stands for. -/
theorem bound_eq : (bound : ℝ) = 5070602400912918 * 2 ^ (-102 : ℤ) := by
  have unpacked : (1e-15 : Float).toModel.unpack =
      .finite .positive 5070602400912918 (-102) (by decide) := rfl
  change realOfFloat 1e-15 = _
  rw [realOfFloat, unpacked]
  norm_num

theorem bound_pos : (0 : ℝ) < bound := by
  rw [bound_eq]
  positivity

theorem bound_lt_half : (bound : ℝ) < half := by
  rw [bound_eq, half, Scalar.ofNat_real]
  norm_num

/-- Where a loss has a derivative: no labelled score is cut off, and wrong nodes count once. -/
inductive Inside (e : TrainingExample) (s : DualScores ℝ) : Loss ℝ → Prop where
  | posNeg {margin : ℝ} (single : half ≤ margin)
    (right : ∀ u ∈ e.pos, bound < s.at_ u ∧ s.at_ u < 1)
    (wrong : ∀ u ∈ e.neg, 0 < s.at_ u ∧ s.at_ u < 1 - bound) : Inside e s (.posNeg margin)
  | normalized (right : bound < (e.pos.map s.at_).sum)
    (labelled : 0 < (e.pos.map s.at_).sum + (e.neg.map s.at_).sum) : Inside e s .normalized

section

variable {s : DualScores ℝ} {nodes features u k : Nat}

private theorem foldl_modify (f : Nat → ℝ) (m : Nat) (a : Array ℝ) :
    let a' := (List.range m).foldl (fun a i => a.modify i (· + f i)) a
    a'.size = a.size ∧ ∀ k, a'[k]? = (a[k]?).map (· + if k < m then f k else 0) := by
  induction m with
  | zero => exact ⟨rfl, fun k => by simp⟩
  | succ m ih =>
    obtain ⟨size, values⟩ := ih
    rw [List.range_succ, List.foldl_append]
    rw [List.foldl_cons, List.foldl_nil]
    refine ⟨(Array.size_modify ..).trans size, fun k => ?_⟩
    rw [Array.getElem?_modify, values]
    by_cases here : m = k
    · subst here
      cases a[m]? <;> simp
    · have before : k < m + 1 ↔ k < m := by omega
      simp [here, before]

/-- A gradient gains a multiple of the slopes of a node. -/
theorem addScaled_spec (fits : s.Fits nodes features) (feature : k < features) (scale : ℝ)
    {gradient : Array ℝ} (size : gradient.size = features) :
    (addScaled s u scale gradient).size = features ∧
      ((addScaled s u scale gradient)[k]?).getD 0 =
        (gradient[k]?).getD 0 + scale * s.slopeOf u k := by
  by_cases inside : u ≤ nodes
  · have bound : u < s.slope.size := by
      rw [fits.slope]
      exact Nat.lt_succ_of_le inside
    have row : s.slope[u]? = some (s.slopesAt u) := by
      rw [DualScores.slopesAt, Array.getElem?_eq_getElem bound, Option.getD_some]
    have width := fits.slopesAt_size inside
    have added : addScaled s u scale gradient =
        (List.range features).foldl (fun gradient k =>
          gradient.modify k (· + scale * ((s.slopesAt u)[k]?).getD 0)) gradient := by
      rw [addScaled, row]
      simp only [size, width, min_self]
    obtain ⟨size', values⟩ :=
      foldl_modify (fun k => scale * ((s.slopesAt u)[k]?).getD 0) features gradient
    rw [added]
    refine ⟨size'.trans size, ?_⟩
    have column : k < gradient.size := by rwa [size]
    rw [values, if_pos feature, Array.getElem?_eq_getElem column]
    rfl
  · -- no slopes belong to a node outside the graph
    have none : s.slope[u]? = none := by
      refine Array.getElem?_eq_none ?_
      rw [fits.slope]
      omega
    have flat : s.slopeOf u k = 0 := by
      rw [DualScores.slopeOf, DualScores.slopesAt, none]
      rfl
    rw [flat, mul_zero, add_zero, addScaled, none]
    exact ⟨size, rfl⟩

end

/-- A loss that varies with the weight of a feature, and its slope by it is the derivative. -/
structure Tracks (L : ℝ → LossValue ℝ) (θ₀ : ℝ) (features k : Nat) : Prop where
  size : (L θ₀).gradient.size = features
  derivative : HasDerivAt (fun θ => (L θ).loss) (((L θ₀).gradient[k]?).getD 0) θ₀

variable {S : ℝ → DualScores ℝ} {L : ℝ → LossValue ℝ} {θ₀ : ℝ} {nodes features u k : Nat}

theorem clamp_of_between {low high x : ℝ} (above : low ≤ x) (below : x ≤ high) :
    Scalar.clamp low high x = x := by
  rw [Scalar.clamp]
  simp only [if_neg (not_lt.2 above), if_neg (not_lt.2 below)]

/-- Slopes of a loss stay right when it loses the logarithm of a score. -/
private theorem Tracks.right (tracks : Tracks L θ₀ features k) (feature : k < features)
    (scores : DualScores.Tracks S θ₀ nodes features k)
    (inside : bound < (S θ₀).at_ u ∧ (S θ₀).at_ u < 1) :
    Tracks (fun θ =>
      { loss := (L θ).loss - Scalar.log (Scalar.clamp bound 1 ((S θ).at_ u))
        gradient := addScaled (S θ) u (-1 / Scalar.clamp bound 1 ((S θ).at_ u)) (L θ).gradient })
      θ₀ features k := by
  have positive : (S θ₀).at_ u ≠ 0 := (bound_pos.trans inside.1).ne'
  have continuous := (scores.derivative u).continuousAt
  obtain ⟨size, slope⟩ := addScaled_spec (u := u) scores.fits.self_of_nhds feature
    (-1 / (S θ₀).at_ u) tracks.size
  refine ⟨?_, ?_⟩
  · simp only [clamp_of_between inside.1.le inside.2.le]
    exact size
  · simp only [clamp_of_between inside.1.le inside.2.le]
    rw [slope]
    have loses := tracks.derivative.fun_sub ((scores.derivative u).log positive)
    refine (loses.congr_deriv ?_).congr_of_eventuallyEq ?_
    · ring
    · filter_upwards [continuous.eventually_const_lt inside.1, continuous.eventually_lt_const inside.2]
        with θ above below
      rw [clamp_of_between above.le below.le]
      rfl

/-- Slopes of a loss stay right when it loses the logarithm of what a score leaves of one. -/
private theorem Tracks.wrong (tracks : Tracks L θ₀ features k) (feature : k < features)
    (scores : DualScores.Tracks S θ₀ nodes features k)
    (inside : 0 < (S θ₀).at_ u ∧ (S θ₀).at_ u < 1 - bound) :
    Tracks (fun θ =>
      { loss := (L θ).loss - 1 * Scalar.log (1 - Scalar.clamp 0 (1 - bound) ((S θ).at_ u))
        gradient := addScaled (S θ) u (1 / (1 - Scalar.clamp 0 (1 - bound) ((S θ).at_ u)))
          (L θ).gradient })
      θ₀ features k := by
  have positive : 1 - (S θ₀).at_ u ≠ 0 := by
    have least := bound_pos
    linarith [inside.2]
  have continuous := (scores.derivative u).continuousAt
  obtain ⟨size, slope⟩ := addScaled_spec (u := u) scores.fits.self_of_nhds feature
    (1 / (1 - (S θ₀).at_ u)) tracks.size
  refine ⟨?_, ?_⟩
  · simp only [clamp_of_between inside.1.le inside.2.le]
    exact size
  · simp only [clamp_of_between inside.1.le inside.2.le]
    rw [slope]
    have loses := tracks.derivative.fun_sub (((scores.derivative u).const_sub 1).log positive)
    refine (loses.congr_deriv ?_).congr_of_eventuallyEq ?_
    · ring
    · filter_upwards [continuous.eventually_const_lt inside.1, continuous.eventually_lt_const inside.2]
        with θ above below
      rw [clamp_of_between above.le below.le, one_mul]
      rfl

variable {us : List Nat}

private theorem Tracks.rights (tracks : Tracks L θ₀ features k) (feature : k < features)
    (scores : DualScores.Tracks S θ₀ nodes features k)
    (inside : ∀ u ∈ us, bound < (S θ₀).at_ u ∧ (S θ₀).at_ u < 1) :
    Tracks (fun θ => us.foldl (fun (v : LossValue ℝ) u =>
      { loss := v.loss - Scalar.log (Scalar.clamp bound 1 ((S θ).at_ u))
        gradient := addScaled (S θ) u (-1 / Scalar.clamp bound 1 ((S θ).at_ u)) v.gradient }) (L θ))
      θ₀ features k := by
  induction us generalizing L with
  | nil => exact tracks
  | cons u rest ih =>
    exact ih (tracks.right feature scores (inside u (by simp)))
      fun v member => inside v (List.mem_cons_of_mem _ member)

private theorem Tracks.wrongs (tracks : Tracks L θ₀ features k) (feature : k < features)
    (scores : DualScores.Tracks S θ₀ nodes features k)
    (inside : ∀ u ∈ us, 0 < (S θ₀).at_ u ∧ (S θ₀).at_ u < 1 - bound) :
    Tracks (fun θ => us.foldl (fun (v : LossValue ℝ) u =>
      { loss := v.loss - 1 * Scalar.log (1 - Scalar.clamp 0 (1 - bound) ((S θ).at_ u))
        gradient := addScaled (S θ) u (1 / (1 - Scalar.clamp 0 (1 - bound) ((S θ).at_ u))) v.gradient })
      (L θ)) θ₀ features k := by
  induction us generalizing L with
  | nil => exact tracks
  | cons u rest ih =>
    exact ih (tracks.wrong feature scores (inside u (by simp)))
      fun v member => inside v (List.mem_cons_of_mem _ member)

private theorem foldl_addScaled (us : List Nat) {s : DualScores ℝ} (fits : s.Fits nodes features)
    (feature : k < features) (scale : ℝ) {gradient : Array ℝ} (size : gradient.size = features) :
    let gradient' := us.foldl (fun gradient u => addScaled s u scale gradient) gradient
    gradient'.size = features ∧
      (gradient'[k]?).getD 0 = (gradient[k]?).getD 0 + scale * (us.map (s.slopeOf · k)).sum := by
  induction us generalizing gradient with
  | nil => exact ⟨size, by simp⟩
  | cons u rest ih =>
    obtain ⟨size', slope⟩ := addScaled_spec (u := u) fits feature scale size
    obtain ⟨size'', slopes⟩ := ih size'
    refine ⟨size'', slopes.trans ?_⟩
    rw [slope, List.map_cons, List.sum_cons, mul_add, add_assoc]

private theorem tracks_zero (feature : k < features) :
    Tracks (fun _ => { loss := 0, gradient := Array.replicate features 0 }) θ₀ features k := by
  refine ⟨Array.size_replicate, ?_⟩
  rw [Array.getElem?_replicate, if_pos feature]
  exact hasDerivAt_const ..

/-- The derivative of the logarithm of a share. -/
private theorem hasDerivAt_log_share {right wrong : ℝ → ℝ} {right' wrong' : ℝ}
    (rights : HasDerivAt right right' θ₀) (wrongs : HasDerivAt wrong wrong' θ₀)
    (positive : right θ₀ ≠ 0) (total : right θ₀ + wrong θ₀ ≠ 0) :
    HasDerivAt (fun θ => -Real.log (right θ / (right θ + wrong θ)))
      ((-1 / right θ₀ + 1 / (right θ₀ + wrong θ₀)) * right' + 1 / (right θ₀ + wrong θ₀) * wrong') θ₀ := by
  have share := rights.fun_div (rights.fun_add wrongs) total
  refine (share.log (div_ne_zero positive total)).fun_neg.congr_deriv ?_
  field_simp
  ring

theorem tracks_normalized {e : TrainingExample} (feature : k < e.graph.featureCount)
    (scores : DualScores.Tracks S θ₀ nodes e.graph.featureCount k)
    (right : bound < (e.pos.map (S θ₀).at_).sum)
    (labelled : 0 < (e.pos.map (S θ₀).at_).sum + (e.neg.map (S θ₀).at_).sum) :
    Tracks (fun θ => normalized.evaluate e (S θ)) θ₀ e.graph.featureCount k := by
  have fits := scores.fits.self_of_nhds
  set P : ℝ → ℝ := fun θ => (e.pos.map (S θ).at_).sum with isP
  set N : ℝ → ℝ := fun θ => (e.neg.map (S θ).at_).sum with isN
  have rights : HasDerivAt P (e.pos.map ((S θ₀).slopeOf · k)).sum θ₀ :=
    hasDerivAt_list_sum fun u _ => scores.derivative u
  have wrongs : HasDerivAt N (e.neg.map ((S θ₀).slopeOf · k)).sum θ₀ :=
    hasDerivAt_list_sum fun u _ => scores.derivative u
  have kept {θ : ℝ} (above : bound < P θ) : Scalar.max (P θ) bound = P θ := max_eq_left above.le
  have loss (θ : ℝ) : (normalized.evaluate e (S θ)).loss =
      -Real.log (Scalar.max (P θ) bound / (Scalar.max (P θ) bound + N θ)) := by
    simp only [isP, isN, ← Scalar.sum_real]
    rfl
  have gradient : (normalized.evaluate e (S θ₀)).gradient =
      e.neg.foldl (fun gradient u => addScaled (S θ₀) u (1 / (P θ₀ + N θ₀)) gradient)
        (e.pos.foldl (fun gradient u =>
          addScaled (S θ₀) u (-1 / P θ₀ + 1 / (P θ₀ + N θ₀)) gradient)
          (Array.replicate e.graph.featureCount 0)) := by
    rw [← kept right]
    simp only [isP, isN, ← Scalar.sum_real]
    rfl
  have zeros : (Array.replicate e.graph.featureCount (0 : ℝ)).size = e.graph.featureCount :=
    Array.size_replicate
  obtain ⟨size, slope⟩ := foldl_addScaled e.pos fits feature
    (-1 / P θ₀ + 1 / (P θ₀ + N θ₀)) zeros
  obtain ⟨size', slope'⟩ := foldl_addScaled e.neg fits feature (1 / (P θ₀ + N θ₀)) size
  constructor
  · rw [gradient]
    exact size'
  · rw [gradient, slope', slope, Array.getElem?_replicate, if_pos feature, Option.getD_some, zero_add]
    refine (hasDerivAt_log_share rights wrongs (bound_pos.trans right).ne' labelled.ne').congr_of_eventuallyEq
      ?_
    filter_upwards [rights.continuousAt.eventually_const_lt right] with θ above
    rw [loss, kept above]

/-- The slopes of a loss are derivatives if those of the scores are. -/
theorem tracks_evaluate {e : TrainingExample} {l : Loss ℝ} (feature : k < e.graph.featureCount)
    (scores : DualScores.Tracks S θ₀ nodes e.graph.featureCount k) (inside : Inside e (S θ₀) l) :
    Tracks (fun θ => l.evaluate e (S θ)) θ₀ e.graph.featureCount k := by
  cases inside with
  | @posNeg margin single right wrong =>
    have once (θ : ℝ) : boost margin e (S θ) = 1 := if_pos single
    unfold evaluate
    simp only [once]
    exact ((tracks_zero feature).rights feature scores right).wrongs feature scores wrong
  | normalized right labelled => exact tracks_normalized feature scores right labelled

end Loss

/-! ### The gradient of the learner -/

open Rounds in
/-- Where a graph is smooth, the slopes that come with the scores of any number of rounds are their
partial derivatives, and so are the slopes of a loss that cuts off no labelled score. -/
theorem Rounds.hasPartial_walk {squash : Squash} {p : Parameters ℝ} {e : TrainingExample}
    (wellFormed : e.graph.WellFormed) (smooth : e.graph.Smooth squash (e.graph.weights squash p))
    (alpha : ℝ) :
    ∃ t, Transitions.load squash p e.graph = .ok t ∧
      ∀ k < e.graph.featureCount, ∀ count,
        (∀ u ∈ e.graph.nodes, ∃ d, ((walk e t alpha count).slopesAt u)[k]? = some d ∧
          e.graph.HasPartial squash p k (fun t => (walk e t alpha count).at_ u) d) ∧
        ∀ l : Loss ℝ, l.Inside e (walk e t alpha count) →
          ∃ d, (l.evaluate e (walk e t alpha count)).gradient[k]? = some d ∧
            e.graph.HasPartial squash p k (fun t => (l.evaluate e (walk e t alpha count)).loss) d := by
  obtain ⟨t, loaded, varies⟩ := smooth.exists_load wellFormed
  refine ⟨t, loaded, fun k feature count => ?_⟩
  obtain ⟨T, θ₀, rfl, transitions, hasPartial⟩ := varies k feature
  have scores := tracks_walk transitions feature alpha count
  constructor
  · intro u node
    have inside := (LearningGraph.mem_nodes.1 node).2
    obtain ⟨d, here, derivative⟩ := scores.exists_slope feature inside
    exact ⟨d, here, hasPartial _ d derivative⟩
  · intro l inside
    have losses := Loss.tracks_evaluate feature scores inside
    have column : k < (l.evaluate e (walk e (T θ₀) alpha count)).gradient.size := by
      rwa [losses.size]
    have here := Array.getElem?_eq_getElem column
    refine ⟨_, here, hasPartial _ _ ?_⟩
    have derivative := losses.derivative
    rw [here] at derivative
    exact derivative

/-- A node with parallel edges to another, one of which has a feature twice, and that goes back and
around. -/
def TrainingExample.forked : TrainingExample where
  query := "p(a)"
  graph :=
    { nodeCount := 2
      targets := #[2, 2, 1, 2]
      labelStarts := #[0, 2, 4, 5, 6]
      labelling := #[(0, 1), (0, 1), (0, 1), (1, 1), (1, 1), (1, 1)]
      starts := #[0, 0, 2, 4]
      features := #["f", "g"]
      dependencies := 0 }
  seed := [(1, 1)]
  pos := [2, 2]
  neg := [1]

namespace TrainingExample

theorem forked_wellFormed : forked.graph.WellFormed := ⟨by decide, by decide⟩

theorem forked_weights : forked.graph.weights .relu (.empty : Parameters ℝ) = #[1, 1] := by
  have none (name : String) : (∅ : Std.TreeMap String (Slot ℝ))[name]? = Option.none :=
    Std.TreeMap.getElem?_emptyc
  have weight (name : String) : (Parameters.empty : Parameters ℝ).getD name 1 = 1 := by
    rw [Parameters.getD, Parameters.get?, Parameters.empty, none]
    rfl
  simp [LearningGraph.weights, forked, Squash.default, weight]

/-- Every edge weighs as much as the number of its labels. -/
theorem forked_score {e : Nat} (below : e < 4) :
    forked.graph.edgeScore #[1, 1] e = (forked.graph.labels e).length := by
  obtain rfl | rfl | rfl | rfl : e = 0 ∨ e = 1 ∨ e = 2 ∨ e = 3 := by omega
  all_goals
    simp only [LearningGraph.edgeScore, LearningGraph.labels, forked, List.getElem?_toArray]
    norm_num [Scalar.ofFloat_one]

theorem forked_labels {u e : Nat} (node : u ∈ forked.graph.nodes) (member : e ∈ forked.graph.edgesOf u) :
    e < 4 ∧ 0 < (forked.graph.labels e).length := by
  have below := forked_wellFormed.edge_lt node member
  have labelled : ∀ e < 4, 0 < (forked.graph.labels e).length := by decide
  exact ⟨below, labelled e below⟩

theorem forked_weight {u e : Nat} (node : u ∈ forked.graph.nodes) (member : e ∈ forked.graph.edgesOf u) :
    forked.graph.edgeWeight .relu #[1, 1] e = (forked.graph.labels e).length := by
  rw [LearningGraph.edgeWeight, forked_score (forked_labels node member).1]
  exact max_eq_left (Nat.cast_nonneg _)

theorem forked_nodeWeight {u : Nat} (node : u ∈ forked.graph.nodes) :
    forked.graph.nodeWeight .relu #[1, 1] u =
      ((forked.graph.edgesOf u).map fun e => (forked.graph.labels e).length).sum := by
  rw [LearningGraph.nodeWeight, List.map_congr_left fun e member => forked_weight node member,
    Nat.cast_list_sum, List.map_map]
  rfl

theorem forked_smooth : forked.graph.Smooth .relu (forked.graph.weights .relu .empty) := by
  rw [forked_weights]
  have weighs : ∀ u ∈ forked.graph.nodes,
      ((forked.graph.edgesOf u).map fun e => (forked.graph.labels e).length).sum ≠ 0 := by decide
  refine ⟨fun u node => .inr (.inl ?_), fun u node e member _ => ?_⟩
  · rw [forked_nodeWeight node]
    exact Nat.cast_ne_zero.2 (weighs u node)
  · obtain ⟨below, labelled⟩ := forked_labels node member
    rw [forked_score below]
    exact Nat.cast_ne_zero.2 labelled.ne'

theorem forked_transitions {t : Transitions ℝ}
    (loaded : Transitions.load .relu .empty forked.graph = .ok t) :
    (∀ u ∈ forked.graph.nodes, t.isAbsorbing u = false) ∧
      ∀ u ∈ forked.graph.nodes, ∀ e ∈ forked.graph.edgesOf u, t.at_ e = 
        (forked.graph.labels e).length /
          ((forked.graph.edgesOf u).map fun e => (forked.graph.labels e).length).sum := by
  have weighs : ∀ u ∈ forked.graph.nodes, forked.graph.nodeWeight .relu #[1, 1] u ≠ 0 := by
    have counts : ∀ u ∈ forked.graph.nodes,
        ((forked.graph.edgesOf u).map fun e => (forked.graph.labels e).length).sum ≠ 0 := by decide
    intro u node
    rw [forked_nodeWeight node]
    exact Nat.cast_ne_zero.2 (counts u node)
  obtain ⟨same, holds⟩ := Transitions.ofWeights_spec forked_wellFormed fun u node => .inl (weighs u node)
  rw [Transitions.load_eq, forked_weights, same] at loaded
  cases loaded
  refine ⟨fun u node => ?_, fun u node e member => ?_⟩
  · rw [(holds u node).1]
    exact decide_eq_false (weighs u node)
  · rw [((holds u node).2 e member).1, (LearningGraph.entry_shareOf (k := 0) (weighs u node) member).1,
      forked_weight node member, forked_nodeWeight node]

private theorem at_seeded (scale : ℝ) :
    (DualScores.seeded 2 2 scale [(1, 1)]).at_ 1 = scale ∧
      (DualScores.seeded 2 2 scale [(1, 1)]).at_ 2 = 0 := by
  have scores : (DualScores.seeded 2 2 scale [(1, 1)]).score = #[0, 0 + scale * Scalar.ofFloat 1, 0] := by
    rfl
  rw [Scalar.ofFloat_one, zero_add, mul_one] at scores
  rw [DualScores.at_, DualScores.at_, scores]
  exact ⟨rfl, rfl⟩

/-- A round leaves half of the score where it starts and moves the other half on. -/
theorem forked_round {t : Transitions ℝ} (loaded : Transitions.load .relu .empty forked.graph = .ok t) :
    (Rounds.walk forked t Loss.half 1).at_ 1 = Loss.half ∧
      (Rounds.walk forked t Loss.half 1).at_ 2 = Loss.half := by
  obtain ⟨spreads, shares⟩ := forked_transitions loaded
  set g := forked.graph with isGraph
  set start : DualScores ℝ := .seeded 2 2 1 [(1, 1)] with isStart
  set first : DualScores ℝ := .seeded 2 2 Loss.half [(1, 1)] with isFirst
  have walk : Rounds.walk forked t Loss.half 1 =
      [2, 3].foldl (DualMass.along g t (1 - Loss.half) (start.at_ 2) (start.slopesAt 2))
        ([0, 1].foldl (DualMass.along g t (1 - Loss.half) (start.at_ 1) (start.slopesAt 1)) first) := by
    change Rounds.spread g t Loss.half start (Rounds.spread g t Loss.half start first 1) 2 = _
    rw [Rounds.spread, Rounds.spread, spreads 1 (by decide), spreads 2 (by decide)]
    rfl
  have fits := (DualScores.seeded_flat 2 2 (Loss.half : ℝ) [(1, 1)]).1
  obtain ⟨fits₁, scores₁, -⟩ := DualMass.foldl_along_spec (g := g) (t := t) fits Nat.two_pos
    (1 - Loss.half) (start.at_ 1) (start.slopesAt 1) [0, 1]
  obtain ⟨-, scores₂, -⟩ := DualMass.foldl_along_spec (g := g) (t := t) fits₁ Nat.two_pos
    (1 - Loss.half) (start.at_ 2) (start.slopesAt 2) [2, 3]
  have targets : g.target 0 = 2 ∧ g.target 1 = 2 ∧ g.target 2 = 1 ∧ g.target 3 = 2 := by decide
  have left : t.at_ 0 = 2 / 4 := shares 1 (by decide) 0 (by decide)
  have right : t.at_ 1 = 2 / 4 := shares 1 (by decide) 1 (by decide)
  have half : (Loss.half : ℝ) = 1 / 2 := rfl
  rw [walk, scores₂, scores₂, scores₁, scores₁]
  simp only [isStart, at_seeded]
  norm_num [half, targets, left, right]

end TrainingExample

open TrainingExample Rounds in
/-- After a round of the forked graph the slopes of its scores and of both losses are right. -/
theorem Rounds.hasPartial_walk_forked :
    forked.graph.WellFormed ∧ forked.graph.Smooth .relu (forked.graph.weights .relu .empty) ∧
      0 < forked.graph.featureCount ∧ 2 ∈ forked.graph.nodes ∧
      ∃ t, Transitions.load .relu .empty forked.graph = .ok t ∧
        (∃ d, ((walk forked t Loss.half 1).slopesAt 2)[0]? = some d ∧
          forked.graph.HasPartial .relu .empty 0 (fun t => (walk forked t Loss.half 1).at_ 2) d) ∧
        ∀ l : Loss ℝ, l = .posNeg Loss.half ∨ l = .normalized →
          l.Inside forked (walk forked t Loss.half 1) ∧
          ∃ d, (l.evaluate forked (walk forked t Loss.half 1)).gradient[0]? = some d ∧
            forked.graph.HasPartial .relu .empty 0
              (fun t => (l.evaluate forked (walk forked t Loss.half 1)).loss) d := by
  obtain ⟨t, loaded, partials⟩ := hasPartial_walk forked_wellFormed forked_smooth Loss.half
  have feature : 0 < forked.graph.featureCount := by decide
  have node : 2 ∈ forked.graph.nodes := by decide
  obtain ⟨scores, losses⟩ := partials 0 feature 1
  refine ⟨forked_wellFormed, forked_smooth, feature, node, t, loaded, scores 2 node, fun l isLoss => ?_⟩
  obtain ⟨one, two⟩ := forked_round loaded
  have little : (Loss.bound : ℝ) < Loss.half := Loss.bound_lt_half
  have half : (Loss.half : ℝ) = 1 / 2 := rfl
  rw [half] at one two little
  have inside : l.Inside forked (walk forked t Loss.half 1) := by
    have right : forked.pos = [2, 2] := rfl
    have wrong : forked.neg = [1] := rfl
    rcases isLoss with rfl | rfl
    · refine .posNeg le_rfl (fun u member => ?_) fun u member => ?_
      · obtain rfl : u = 2 := by simpa [right] using member
        rw [half, two]
        constructor <;> linarith
      · obtain rfl : u = 1 := by simpa [wrong] using member
        rw [half, one]
        constructor <;> linarith
    · refine .normalized ?_ ?_ <;>
      · simp only [right, wrong, List.map_cons, List.map_nil, List.sum_cons, List.sum_nil, half, one, two]
        linarith
  exact ⟨inside, losses l inside⟩

end ProofWalk
