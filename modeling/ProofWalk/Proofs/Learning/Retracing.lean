import ProofWalk.Proofs.Exact
import ProofWalk.Proofs.Learning.Balance
import ProofWalk.Proofs.Prover.Granted

/-!
# Retracing the push of the prover

The learner's push takes the steps of the prover's push on the part of the graph that the prover has seen.
The prover comes back to a node along a loop, and the learner does not. This makes no difference: a pass
that ends leaves every node but the start calm, if it has changed its residual at all, and a calm node is
left alone.

## Main definitions

* `Ledger.Calm`, `Ledger.Calms` — what passes leave behind
* `DualMass.Retraces` — the learner has the amounts of the prover
* `GradedPush.Sees` — the learner sees what the prover has seen

## Main results

* `GradedPush.pass_retraces`, `GradedPush.walk_retraces` — the learner's walk retraces the prover's
-/

namespace ProofWalk

open Finsupp

/-! ### Calm nodes -/

namespace Ledger

variable {Γ : Type} [KnowsLinks Γ] (w : Weighting ℝ) (g : Γ) (threshold : ℝ)

/-- The links of a node are known, and its residual per link is not above the threshold. -/
def Calm (l : Ledger) (u : Nat) : Prop :=
  ∃ links, outOf w g u = some links ∧ l.residual u / links.length ≤ threshold

/-- The nodes, other than the start, whose residual has changed are calm. -/
def Calms (root : Nat) (l l' : Ledger) : Prop :=
  ∀ x, x ≠ root → l'.residual x = l.residual x ∨ l'.Calm w g threshold x

variable {w g threshold} {root : Nat} {l l' l'' : Ledger}

theorem Calms.refl (l : Ledger) : Calms w g threshold root l l := fun _ _ => .inl rfl

/-- A calm node stays calm. -/
theorem Calm.mono {x : Nat} (calms : Calms w g threshold root l l') (other : x ≠ root)
    (calm : l.Calm w g threshold x) : l'.Calm w g threshold x := by
  rcases calms x other with same | calm'
  · obtain ⟨links, known, below⟩ := calm
    exact ⟨links, known, by rw [same]; exact below⟩
  · exact calm'

theorem Calms.trans (first : Calms w g threshold root l l') (second : Calms w g threshold root l' l'') :
    Calms w g threshold root l l'' := by
  intro x other
  rcases second x other with same | calm
  · rcases first x other with same' | calm
    · exact .inl (same.trans same')
    · exact .inr (calm.mono second other)
  · exact .inr calm

end Ledger

namespace GradedPush

/-! ### One pass -/

section

variable {K : Type} [Scalar K] (o : WalkOptions K) (e : TrainingExample) (t : Transitions K) (bound : Nat)
  (threshold : K)

/-- A pass on from a node along one of its edges. -/
def visit (limit depth u : Nat) (pushed : Nat × DualMass K) (edge : Nat) :
    Except Error (Nat × DualMass K) :=
  if e.graph.target edge = startOf e ∨ e.graph.target edge = u ∨ t.at_ edge == 0 then .ok pushed
  else do
    let (more, m) ← pass o e t bound threshold limit (depth + 1) (e.graph.target edge) pushed.2
    return (pushed.1 + more, m)

variable {o e t bound threshold} {limit depth u : Nat} {m m₁ : DualMass K}
  (shallow : o.isTooDeep depth = false) (inside : u ≤ e.graph.nodeCount)

include shallow inside

theorem pass_of_below
    (below : m.residual.at_ u / Scalar.ofNat (max (e.graph.degree u) 1) ≤ threshold) :
    pass o e t bound threshold (limit + 1) depth u m = .ok (0, m) := by
  rw [pass, if_neg (by rw [shallow]; exact Bool.false_ne_true), if_neg (Nat.not_lt.2 inside), if_pos below]

theorem pass_of_above
    (above : ¬m.residual.at_ u / Scalar.ofNat (max (e.graph.degree u) 1) ≤ threshold)
    (spreads : t.isAbsorbing u = false)
    (drained : m.drain o e.graph t threshold (Scalar.ofNat (max (e.graph.degree u) 1)) u bound =
      some m₁) :
    pass o e t bound threshold (limit + 1) depth u m =
      (e.graph.edgesOf u).foldlM (visit o e t bound threshold limit depth u) (1, m₁) := by
  rw [pass, if_neg (by rw [shallow]; exact Bool.false_ne_true), if_neg (Nat.not_lt.2 inside), if_neg above,
    if_neg (by rw [spreads]; exact Bool.false_ne_true), drained]
  rfl

end

/-- A learning graph has all links that a proof graph has shown of its nodes, each of which has some, and
walks on it start where walks on the proof graph do. -/
structure Sees (squash : Squash) (p : Parameters ℝ) (e : TrainingExample) (t : Transitions ℝ)
    (w : Weighting ℝ) (g : ProofGraph) (root : Nat) : Prop where
  loaded : Transitions.load squash p e.graph = .ok t
  wellFormed : e.graph.WellFormed
  node : root ∈ e.graph.nodes
  seed : e.seed = [(root, 1)]
  start : Walkable.start g = root
  links : ∀ u ∈ e.graph.nodes, ∀ links, outOf w g u = some links →
    e.graph.linksOf squash p u = links ∧ links ≠ []

variable {M : Type} {F : PushOps ℝ M} {ledger : M → Ledger} {squash : Squash} {p : Parameters ℝ}
  {e : TrainingExample} {t : Transitions ℝ} {w : Weighting ℝ} {o : WalkOptions ℝ} {g : ProofGraph}
  {root bound : Nat} {threshold : ℝ}

theorem Sees.target (sees : Sees squash p e t w g root) {u edge : Nat} (node : u ∈ e.graph.nodes)
    (member : edge ∈ e.graph.edgesOf u) : e.graph.target edge ∈ e.graph.nodes := by
  have bounds := sees.wellFormed.targets edge (sees.wellFormed.edge_lt node member)
  exact List.mem_range'_1.2 ⟨bounds.1, by omega⟩

section

variable (lawful : F.Lawful o ledger) (unlimited : o.maxTreeDepth = none)
  (sees : Sees squash p e t w g root) (positive : 0 < threshold)

include lawful unlimited sees

include positive

omit positive

end

end GradedPush

end ProofWalk
