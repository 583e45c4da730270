import ProofWalk.Prover.Basic

/-!
# Proofs inside proofs

A relation may itself start proofs while it is looked up. The prover that calls it is then in use and
refuses, and a copy of it does not.

## Main definitions

* `Prover.sizeOfProof` — the number of nodes that a proof scores
* `Prover.proveCalling` — a proof whose look-ups start proofs of their own
-/

namespace ProofWalk.Prover

variable {K : Type} [Scalar K]

/-- Proves the query of a line. Gives the number of nodes with a score, and the graph. -/
def proofOf (p : Prover K) (query : String) (program : Program) (relations : List Relation) :
    Except Error (Nat × ProofGraph) := do
  let g ← p.makeGraph (← LabelledExample.parse? query 1) program relations .empty
  let (r, g) := p.proveOn g
  return ((← r).size, g)

/-- The number of nodes with a score in the proof of a query that no rule and no relation defines. -/
def sizeOfProof (p : Prover K) (query : String) : Except Error Nat :=
  (p.proofOf query .empty []).map (·.1)

/-- What proofs inside another gave: with the prover that is in use, and with a copy of it. -/
structure InnerProofs where
  calling : Except Error Nat
  copied : Except Error Nat

/-- Proves a query with rules and one relation, which answers the predicate `again/0` by a single row
and proves another query at each look-up. Gives the number of nodes with a score, and what the inner
proofs gave. Those do not change the prover: a second proof gives the same. -/
def proveCalling (p : Prover K) (query inner : String) (program : Program) :
    Except Error (Nat × List InnerProofs) := do
  let again := Relation.fixed "again/0" [{ values := [], features := .single "again" 1 }]
  let (size, g) ← p.proofOf query program [again]
  let proofs : InnerProofs :=
    { calling := p.entered.sizeOfProof inner, copied := p.copy.sizeOfProof inner }
  return (size, (g.callers "again/0").map fun _ => proofs)

end ProofWalk.Prover
