import ProofWalk.Proofs.ProofGraph.Alike
import ProofWalk.Proofs.Prover.Ledger
import ProofWalk.Proofs.Prover.Passes

/-!
# The two forms of local push

The local push over maps and the one over arrays ask their graphs for the same things in the same order
and compute the same numbers, whatever kind of numbers these are. On graphs of either kind they
therefore fail alike, or both end with the same amounts at every node.

## Main definitions

* `PushOps.Agree` — forms of local push that keep amounts the same

## Main results

* `PushOps.Agree.tighten` — forms that keep amounts the same walk alike
* `Walk.push_simulates` — the local push over maps and the one over arrays
-/

namespace ProofWalk

/-- The graphs of two sessions are alike, and as many features have been counted. -/
structure Session.Alike (s t : Session ProofGraph) : Prop where
  graph : s.graph.Alike t.graph
  tally : s.tally = t.tally

namespace Walk

variable {K : Type} [Scalar K]

theorem start_simulates : Simulates Session.Alike Eq start start := by
  intro s t alike
  have startId : t.graph.startId = s.graph.startId := by rw [alike.graph.rest]
  refine ⟨?_, alike⟩
  exact .ok startId.symm

theorem links_simulates (u : Nat) (loops : Bool) :
    Simulates Session.Alike Eq (links u loops) (links u loops) := by
  intro s t alike
  obtain ⟨same, alike'⟩ := alike.graph.expanded u loops
  refine ⟨?_, alike', alike.tally⟩
  change Corresponds Eq ((s.graph.expanded u loops).1.map _) ((t.graph.expanded u loops).1.map _)
  rw [same]
  cases (t.graph.expanded u loops).1 with
  | error e => exact .error e
  | ok e => exact .ok rfl

theorem degree_simulates (u : Nat) :
    Simulates Session.Alike Eq (degree u : Walk ProofGraph K) (degree u) := by
  intro s t alike
  obtain ⟨same, alike'⟩ := alike.graph.expanded u true
  refine ⟨?_, alike', alike.tally⟩
  change Corresponds Eq (((s.graph.expanded u true).1.map _).map _)
    (((t.graph.expanded u true).1.map _).map _)
  rw [same]
  cases (t.graph.expanded u true).1 with
  | error e => exact .error e
  | ok e => exact .ok rfl

theorem weighLinks_simulates (w : Weighting K) (u : Nat) (loops : Bool) :
    Simulates Session.Alike Eq (weighLinks w u loops) (weighLinks w u loops) := by
  have weigh_simulates (l : Link) : Simulates Session.Alike Eq (weigh w l) (weigh w l) := by
    intro s t alike
    refine ⟨.ok rfl, alike.graph, ?_⟩
    change s.tally.count _ _ = t.tally.count _ _
    rw [alike.tally]
  have mapM_simulates (ls : List Link) :
      Simulates Session.Alike Eq (ls.mapM (weigh w)) (ls.mapM (weigh w)) := by
    induction ls with
    | nil => exact .pure rfl
    | cons l rest ih =>
      rw [List.mapM_cons]
      refine (weigh_simulates l).bind fun x x' same => ?_
      refine ih.bind fun xs xs' others => .pure ?_
      rw [same, others]
  refine (links_simulates u loops).bind fun ls ls' same => ?_
  rw [same]
  refine (mapM_simulates ls').bind fun xs xs' others => .pure ?_
  rw [others]

end Walk

namespace PushOps

variable {K M M' : Type} [Scalar K]

/-- Two forms of local push keep amounts the same. -/
structure Agree (F : PushOps K M) (F' : PushOps K M') (A : M → M' → Prop) : Prop where
  residual : ∀ {m m'}, A m m' → ∀ u, F.residual m u = F'.residual m' u
  push : ∀ {m m'}, A m m' → ∀ u links total, A (F.push u links total m) (F'.push u links total m')
  absorb : ∀ {m m'}, A m m' → ∀ u, A (F.absorb u m) (F'.absorb u m')

namespace Agree

variable {F : PushOps K M} {F' : PushOps K M'} {A : M → M' → Prop} {m : M} {m' : M'}

/-- A node is pushed as often in one form as in the other. -/
theorem drain (agree : Agree F F' A) (same : A m m') (threshold degree : K) (u : Nat)
    (links : List (Nat × K)) (total : K) (limit : Nat) :
    Option.Rel A (F.drain threshold degree u links total limit m)
      (F'.drain threshold degree u links total limit m') := by
  induction limit generalizing m m' with
  | zero => exact .none
  | succ limit ih =>
    rw [PushOps.drain, PushOps.drain, agree.residual same]
    split
    · exact ih (agree.push same u links total)
    · exact .some same

/-- What a pass gives: as many pushes, and the same amounts. -/
def Passed (A : M → M' → Prop) (x : Nat × M) (y : Nat × M') : Prop := x.1 = y.1 ∧ A x.2 y.2

theorem pass (agree : Agree F F' A) (w : Weighting K) (o : WalkOptions K) (bound : Nat) (threshold : K)
    (limit depth u : Nat) (same : A m m') :
    Simulates Session.Alike (Passed A) (F.pass w o bound threshold limit depth u m)
      (F'.pass w o bound threshold limit depth u m') := by
  induction limit generalizing depth u m m' with
  | zero => exact .throw _
  | succ limit ih =>
    unfold PushOps.pass
    split
    · exact .pure ⟨rfl, same⟩
    refine (Walk.degree_simulates u).bind ?_
    rintro degree _ rfl
    rw [agree.residual same]
    split
    · exact .pure ⟨rfl, same⟩
    refine (Walk.weighLinks_simulates w u true).bind ?_
    rintro ⟨links, total⟩ _ rfl
    simp only
    split
    · exact .pure ⟨rfl, agree.absorb same u⟩
    have drained := agree.drain same threshold degree u links total bound
    generalize F.drain threshold degree u links total bound m = x at drained
    generalize F'.drain threshold degree u links total bound m' = y at drained
    cases drained with
    | none => exact .throw _
    | some pushed =>
      refine Walk.start_simulates.bind ?_
      rintro root _ rfl
      -- on through the links, with what has been passed so far
      refine Simulates.foldlM ?_ links ⟨rfl, pushed⟩
      rintro ⟨pushes, m₁⟩ ⟨_, m₁'⟩ ⟨v, weight⟩ ⟨rfl, same₁⟩
      simp only
      split
      · exact .pure ⟨rfl, same₁⟩
      · refine (ih (depth + 1) v same₁).bind ?_
        rintro ⟨more, m₂⟩ ⟨_, m₂'⟩ ⟨rfl, same₂⟩
        exact .pure ⟨rfl, same₂⟩

/-- Forms that keep amounts the same walk alike. -/
theorem tighten (agree : Agree F F' A) (w : Weighting K) (o : WalkOptions K) (bound root limit : Nat)
    (threshold : K) (same : A m m') :
    Simulates Session.Alike A (F.tighten w o bound root limit threshold m)
      (F'.tighten w o bound root limit threshold m') := by
  induction limit generalizing threshold m m' with
  | zero => exact .throw _
  | succ limit ih =>
    unfold PushOps.tighten
    refine (agree.pass w o bound (tightened o threshold) bound 1 root same).bind ?_
    rintro ⟨pushes, m₁⟩ ⟨_, m₁'⟩ ⟨rfl, same₁⟩
    simp only
    split
    · exact .pure same₁
    · exact ih _ same₁

end Agree

/-- The form over maps and the form over arrays keep amounts the same. -/
theorem agree_forms (o : WalkOptions K) : Agree (sparse o) (dense o) SparseMass.Agrees where
  residual same := same.residual
  push same u links total := by
    refine ⟨?_, ?_⟩
    · change Scores.Tells (Scores.add _ u (o.alpha * _)) (addAt _ u (o.alpha * _))
      rw [same.residual u]
      exact same.settled.add u _
    · change Scores.Tells (links.foldl _ _) (links.foldl _ _)
      rw [same.residual u]
      exact (same.residual.put u _).give
        (fun weight => (1 - o.alpha) * (1 - o.stay) * (weight / total) * _) links
  absorb same u := by
    refine ⟨?_, same.residual.put u 0⟩
    change Scores.Tells (Scores.add _ u _) (addAt _ u _)
    rw [same.residual u]
    exact same.settled.add u _

end PushOps

/-- The local push over maps and the one over arrays fail alike on graphs of either kind, or both end with
the same amounts at every node. -/
theorem Walk.push_simulates {K : Type} [Scalar K] (w : Weighting K) (o : WalkOptions K) (bound : Nat) :
    Simulates Session.Alike SparseMass.Agrees (pushSparse w o bound) (pushDense w o bound) := by
  unfold pushSparse pushDense
  refine start_simulates.bind ?_
  rintro root _ rfl
  rw [tightenSparse_eq, tightenDense_eq]
  exact (PushOps.agree_forms o).tighten w o bound root bound 1
    ⟨Scores.Tells.empty, Scores.Tells.empty.put root 1⟩

end ProofWalk
