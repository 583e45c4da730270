import ProofWalk.Prover.PowerIteration

/-!
# Local push

A push settles `alpha` of a node's residual and spreads the rest over its links in proportion to
their weights, but for a share that stays at the node. A node is pushed while its residual per link
exceeds a threshold. A pass goes depth first through the nodes that links lead to; the threshold
begins at one and is divided by ten before every pass, down to `epsilon`, and the walk ends after a
pass at `epsilon` that pushes nothing. A node whose links weigh nothing settles all it has.

There are two forms, with residual and settled mass in maps and in arrays. They do the same
arithmetic in the same order.

## Main definitions

* `SparseMass`, `Walk.pushSparse` — the form over maps
* `DenseMass`, `Walk.pushDense` — the form over arrays
-/

namespace ProofWalk

/-- Settled and residual mass by node. -/
structure SparseMass (K : Type) where
  settled : Scores K
  residual : Scores K

/-- Settled and residual mass by index. -/
structure DenseMass (K : Type) where
  settled : Array K
  residual : Array K

section
variable {K : Type} [Scalar K]

/-- What one push of residual `r` does to a node and to the nodes its links lead to. -/
def SparseMass.push (o : WalkOptions K) (u : Nat) (links : List (Nat × K)) (total r : K)
    (m : SparseMass K) : SparseMass K :=
  let settled := Scores.add m.settled u (o.alpha * r)
  let residual := m.residual.insert u ((1 - o.alpha) * o.stay * r)
  { settled
    residual := links.foldl (fun residual (v, weight) =>
      if weight == 0 then residual
      else Scores.add residual v ((1 - o.alpha) * (1 - o.stay) * (weight / total) * r)) residual }

/-- Pushes a node while its residual per link exceeds the threshold, at most `limit` times. -/
def SparseMass.drain (o : WalkOptions K) (threshold degree : K) (u : Nat) (links : List (Nat × K))
    (total : K) : Nat → SparseMass K → Option (SparseMass K)
  | 0, _ => none
  | limit + 1, m =>
    let r := Scores.at m.residual u
    if threshold < r / degree then
      drain o threshold degree u links total limit (m.push o u links total r)
    else some m

/-- Settles all the residual of a node. -/
def SparseMass.absorb (u : Nat) (m : SparseMass K) : SparseMass K :=
  { settled := Scores.add m.settled u (Scores.at m.residual u)
    residual := m.residual.insert u 0 }

/-- What one push of residual `r` does to a node and to the nodes its links lead to. -/
def DenseMass.push (o : WalkOptions K) (u : Nat) (links : List (Nat × K)) (total r : K)
    (m : DenseMass K) : DenseMass K :=
  let settled := addAt m.settled u (o.alpha * r)
  let residual := putAt m.residual u ((1 - o.alpha) * o.stay * r)
  { settled
    residual := links.foldl (fun residual (v, weight) =>
      if weight == 0 then residual
      else addAt residual v ((1 - o.alpha) * (1 - o.stay) * (weight / total) * r)) residual }

/-- Pushes a node while its residual per link exceeds the threshold, at most `limit` times. -/
def DenseMass.drain (o : WalkOptions K) (threshold degree : K) (u : Nat) (links : List (Nat × K))
    (total : K) : Nat → DenseMass K → Option (DenseMass K)
  | 0, _ => none
  | limit + 1, m =>
    let r := entryAt m.residual u
    if threshold < r / degree then
      drain o threshold degree u links total limit (m.push o u links total r)
    else some m

/-- Settles all the residual of a node. -/
def DenseMass.absorb (u : Nat) (m : DenseMass K) : DenseMass K :=
  { settled := addAt m.settled u (entryAt m.residual u)
    residual := putAt m.residual u 0 }

/-- All settled and residual mass. -/
def SparseMass.total (m : SparseMass K) : K :=
  Scalar.sum m.settled.values + Scalar.sum m.residual.values

/-- All settled and residual mass. -/
def DenseMass.total (m : DenseMass K) : K :=
  Scalar.sum m.settled.toList + Scalar.sum m.residual.toList

/-- The threshold of the next pass. -/
def tightened (o : WalkOptions K) (threshold : K) : K :=
  Scalar.max (threshold / Scalar.ofNat 10) o.epsilon

end

namespace Walk

variable {Γ K : Type} [Walkable Γ] [Scalar K]

/-- A pass from a node at a depth: pushes it, then goes on through the nodes its links lead to.
Gives the number of nodes pushed. Goes at most `limit` deep, and pushes a node at most `bound` times
in a row. -/
def passSparse (w : Weighting K) (o : WalkOptions K) (bound : Nat) (threshold : K) :
    Nat → Nat → Nat → SparseMass K → Walk Γ (Nat × SparseMass K)
  | 0, _, _, _ => throw .walkUnfinished
  | limit + 1, depth, u, m => do
    if o.isTooDeep depth then return (0, m)
    let degree ← degree u
    if Scores.at m.residual u / degree ≤ threshold then return (0, m)
    let (links, total) ← weighLinks w u true
    if total == 0 then return (1, m.absorb u)
    match m.drain o threshold degree u links total bound with
    | none => throw .walkUnfinished
    | some m =>
      let root ← start
      links.foldlM (fun (pushes, m) (v, weight) => do
        if v = root || weight == 0 then pure (pushes, m)
        else
          let (more, m) ← passSparse w o bound threshold limit (depth + 1) v m
          pure (pushes + more, m)) (1, m)

/-- Passes with ever lower thresholds until one at `epsilon` pushes nothing. -/
def tightenSparse (w : Weighting K) (o : WalkOptions K) (bound root : Nat) :
    Nat → K → SparseMass K → Walk Γ (SparseMass K)
  | 0, _, _ => throw .walkUnfinished
  | limit + 1, threshold, m => do
    let threshold := tightened o threshold
    let (pushes, m) ← passSparse w o bound threshold bound 1 root m
    if threshold == o.epsilon && pushes == 0 then return m
    tightenSparse w o bound root limit threshold m

/-- The local push over maps. The bound is on passes, on their depth, and on the pushes of a node in a
row. -/
def pushSparse (w : Weighting K) (o : WalkOptions K) (bound : Nat := walkLimit) :
    Walk Γ (SparseMass K) := do
  let root ← start
  tightenSparse w o bound root bound 1 { settled := ∅, residual := (∅ : Scores K).insert root 1 }

/-- A pass from a node at a depth, over arrays. -/
def passDense (w : Weighting K) (o : WalkOptions K) (bound : Nat) (threshold : K) :
    Nat → Nat → Nat → DenseMass K → Walk Γ (Nat × DenseMass K)
  | 0, _, _, _ => throw .walkUnfinished
  | limit + 1, depth, u, m => do
    if o.isTooDeep depth then return (0, m)
    let degree ← degree u
    if entryAt m.residual u / degree ≤ threshold then return (0, m)
    let (links, total) ← weighLinks w u true
    if total == 0 then return (1, m.absorb u)
    match m.drain o threshold degree u links total bound with
    | none => throw .walkUnfinished
    | some m =>
      let root ← start
      links.foldlM (fun (pushes, m) (v, weight) => do
        if v = root || weight == 0 then pure (pushes, m)
        else
          let (more, m) ← passDense w o bound threshold limit (depth + 1) v m
          pure (pushes + more, m)) (1, m)

/-- Passes with ever lower thresholds until one at `epsilon` pushes nothing, over arrays. -/
def tightenDense (w : Weighting K) (o : WalkOptions K) (bound root : Nat) :
    Nat → K → DenseMass K → Walk Γ (DenseMass K)
  | 0, _, _ => throw .walkUnfinished
  | limit + 1, threshold, m => do
    let threshold := tightened o threshold
    let (pushes, m) ← passDense w o bound threshold bound 1 root m
    if threshold == o.epsilon && pushes == 0 then return m
    tightenDense w o bound root limit threshold m

/-- The local push over arrays. The bound is on passes, on their depth, and on the pushes of a node in
a row. -/
def pushDense (w : Weighting K) (o : WalkOptions K) (bound : Nat := walkLimit) :
    Walk Γ (DenseMass K) := do
  let root ← start
  tightenDense w o bound root bound 1 { settled := #[], residual := putAt #[] root 1 }

end Walk

end ProofWalk
