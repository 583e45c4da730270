import ProofWalk.Proofs.Prover.Rounds
import ProofWalk.Prover.Basic

/-!
# What provers ask

Whatever its kind, a prover learns of its graph by asking for links. So what a proof leaves behind, also
one that fails, is its graph after it has been asked for the links of nodes one after the other.

## Main definitions

* `ProofGraph.Questioned` — what a graph becomes as it is asked
* `Walk.Questions` — what a walk makes of its graph

## Main results

* `ProofGraph.Questioned.rest` — questions leave the example and the code of a graph alone
* `Prover.questioned_proveOn` — proofs only ask
-/

namespace ProofWalk

namespace ProofGraph

variable {g g' : ProofGraph}

/-- What a graph becomes as it is asked for links, whether it gives them or not. -/
def Questioned : ProofGraph → ProofGraph → Prop :=
  Relation.ReflTransGen fun g g' => ∃ u loops, g' = (g.expanded u loops).2

theorem linksTo_rest (g : ProofGraph) (steps : List Outlink) :
    (g.linksTo steps).2.labelled = g.labelled ∧ (g.linksTo steps).2.code = g.code := by
  induction steps generalizing g with
  | nil => exact ⟨rfl, rfl⟩
  | cons o rest ih =>
    have first : (g.classNode o.child).2.labelled = g.labelled ∧ (g.classNode o.child).2.code = g.code := by
      unfold classNode representative
      simp only
      split <;> exact ⟨rfl, rfl⟩
    obtain ⟨labelled, code⟩ := ih (g.classNode o.child).2
    exact ⟨labelled.trans first.1, code.trans first.2⟩

theorem record_rest (g : ProofGraph) (u : Nat) (e : Expansion) (loops : Bool) :
    (g.record u e loops).2.labelled = g.labelled ∧ (g.record u e loops).2.code = g.code := by
  unfold record
  split
  · split <;> exact ⟨rfl, rfl⟩
  · exact ⟨rfl, rfl⟩

theorem expanded_rest (g : ProofGraph) (u : Nat) (loops : Bool) :
    (g.expanded u loops).2.labelled = g.labelled ∧ (g.expanded u loops).2.code = g.code := by
  rcases g.expanded_cases u loops with ⟨err, failed⟩ | ⟨e, -, asked⟩ | ⟨s, e, g₁, -, -, expands, asked⟩
  · rw [failed]
    exact ⟨rfl, rfl⟩
  · rw [asked]
    exact g.record_rest u e loops
  · have first : g₁.labelled = g.labelled ∧ g₁.code = g.code := by
      unfold ProofGraph.expand at expands
      split at expands
      · cases expands
      · cases expands
        exact g.linksTo_rest _
    rw [asked]
    obtain ⟨labelled, code⟩ :=
      record_rest { g₁ with expansions := g₁.expansions.insert u e } u e loops
    exact ⟨labelled.trans first.1, code.trans first.2⟩

/-- A graph that is asked for links keeps its example and its code. -/
theorem Questioned.rest (asked : g.Questioned g') : g'.labelled = g.labelled ∧ g'.code = g.code := by
  induction asked with
  | refl => exact ⟨rfl, rfl⟩
  | @tail g₁ g₂ _ step ih =>
    obtain ⟨u, loops, rfl⟩ := step
    obtain ⟨labelled, code⟩ := g₁.expanded_rest u loops
    exact ⟨labelled.trans ih.1, code.trans ih.2⟩

end ProofGraph

namespace Walk

open ProofGraph (Questioned)

variable {K : Type} [Scalar K]

/-- A walk only asks its graph for links. -/
def Questions {α : Type} (x : Walk ProofGraph α) : Prop :=
  ∀ s, Questioned s.graph (x s).2.graph

namespace Questions

variable {α β : Type}

theorem pure (a : α) : Questions (Pure.pure a : Walk ProofGraph α) := fun _ => .refl

theorem throw (e : Error) : Questions (throwThe Error e : Walk ProofGraph α) := fun _ => .refl

theorem bind {x : Walk ProofGraph α} {f : α → Walk ProofGraph β} (first : Questions x)
    (next : ∀ a, Questions (f a)) : Questions (x >>= f) := by
  intro s
  have asked := first s
  rw [bind_apply]
  rcases ran : x s with ⟨e | a, s₁⟩
  · rw [ran] at asked
    exact asked
  · rw [ran] at asked
    exact asked.trans (next a s₁)

end Questions

theorem start_questions : Questions (start : Walk ProofGraph Nat) := fun _ => .refl

theorem isCompleted_questions (u : Nat) : Questions (isCompleted u : Walk ProofGraph Bool) :=
  fun _ => .refl

theorem degree_questions (u : Nat) : Questions (degree u : Walk ProofGraph K) := fun _ =>
  .single ⟨u, true, rfl⟩

theorem weighLinks_questions (w : Weighting K) (u : Nat) (loops : Bool) :
    Questions (weighLinks w u loops : Walk ProofGraph _) := by
  intro s
  obtain ⟨tally, asks⟩ := weighLinks_apply w u loops s
  rw [asks]
  exact .single ⟨u, loops, rfl⟩

theorem closed_questions (w : Weighting K) : Closed (fun _ => Questions) w where
  pure := Questions.pure
  throw := Questions.throw
  bind := Questions.bind
  start := start_questions
  degree := degree_questions
  weighLinks u := weighLinks_questions w u true

end Walk

namespace Prover

open Walk

variable {K : Type} [Scalar K]

omit [Scalar K] in
theorem enter_questions (p : Prover K) : Questions p.enter := by
  intro s
  unfold enter
  split
  · exact .refl
  · split <;> exact .refl

/-- A prover of any kind only asks for links. -/
theorem prove_questions (p : Prover K) : Questions p.prove := by
  have closed := closed_questions p.weighter.weighting
  unfold prove
  refine .bind p.enter_questions fun _ => ?_
  split
  · rename_i loops _
    exact closed.pathSums p.options loops isCompleted_questions fun u => weighLinks_questions _ u loops
  · rw [powerSparse_eq]
    exact closed.powerIn _ p.options
  · refine .bind (.bind start_questions fun root => ?_) fun m => .pure _
    rw [tightenSparse_eq]
    exact PushOps.closed_tighten _ closed p.options _ _ _ _ _
  · exact .bind (closed.powerDense p.options) fun scores => .pure _
  · refine .bind (.bind start_questions fun root => ?_) fun m => .pure _
    rw [tightenDense_eq]
    exact PushOps.closed_tighten _ closed p.options _ _ _ _ _
  · exact .bind (closed.pushByPriority p.options walkLimit) fun m => .pure _

/-- A proof only asks its graph for links, whether it ends or not. -/
theorem questioned_proveOn (p : Prover K) (g : ProofGraph) : g.Questioned (p.proveOn g).2 :=
  p.prove_questions (session g)

end Prover

end ProofWalk
