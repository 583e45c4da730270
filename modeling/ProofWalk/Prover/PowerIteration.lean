import ProofWalk.Prover.Walk

/-!
# Path sums and power iteration

The depth-first prover gives every path from the start the product of the shares of its links. A
node keeps what it was given less what it passed on. A restart takes its share of the total weight
but is not followed. A node that is reached by several paths adds up what each of them left.

In power iteration a round moves `1 - alpha` of every score along the links in proportion to their weights
and puts `alpha` back at the start. A node whose links weigh nothing keeps its score. The number of rounds
is fixed. There are two forms, over a map from nodes and over an array.

## Main definitions

* `Walk.trail` — what each visit to a node left there, in the order of the visits
* `Walk.pathSums` — the scores of the depth-first prover
* `Walk.powerSparse` — the scores of power iteration in a map
* `Walk.powerDense` — the scores in an array
-/

namespace ProofWalk

/-! ### Path sums -/

namespace Walk

variable {Γ K : Type} [Walkable Γ] [Scalar K]

/-- What each visit to a node left there, in the order of the visits, for `given` weight at node
`u` and paths of at most `depth` more links. -/
def trail (w : Weighting K) (loops : Bool) : Nat → Nat → K → Walk Γ (List (Nat × K))
  | 0, u, given => pure [(u, given)]
  | depth + 1, u, given => do
    if ← isCompleted u then pure [(u, given)]
    else
      let (links, total) ← weighLinks w u loops
      if total == 0 then pure [(u, given)]
      else
        let start ← start
        let (kept, visits) ← links.foldlM (fun (kept, visits) (v, weight) =>
          if v = start then pure (kept, visits)
          else do
            let share := given * weight / total
            let more ← trail w loops depth v share
            pure (kept - share, visits ++ more)) (given, [])
        pure ((u, kept) :: visits)

/-- The scores of the depth-first prover. -/
def pathSums (w : Weighting K) (o : WalkOptions K) (loops : Bool) : Walk Γ (Scores K) := do
  let start ← start
  let visits ← trail w loops o.maxDepth start 1
  pure (visits.foldl (fun scores (u, x) => Scores.add scores u x) ∅)

end Walk

/-! ### Power iteration -/

/-- An array with an amount added at an index, filled up with zeros if it is too short. -/
def addAt {K : Type} [Scalar K] (a : Array K) (i : Nat) (x : K) : Array K :=
  let a := a ++ Array.replicate (i + 1 - a.size) 0
  a.modify i (· + x)

/-- An array with an entry set, filled up with zeros if it is too short. -/
def putAt {K : Type} [Scalar K] (a : Array K) (i : Nat) (x : K) : Array K :=
  let a := a ++ Array.replicate (i + 1 - a.size) 0
  a.setIfInBounds i x

/-- The entry of an array, zero past its end. -/
def entryAt {K : Type} [Scalar K] (a : Array K) (i : Nat) : K := (a[i]?).getD 0

/-- The nodes of an array with nonzero entries. -/
def scoresOfArray {K : Type} [Scalar K] (a : Array K) : Scores K :=
  (List.range a.size).foldl (fun scores u =>
    if entryAt a u != 0 then scores.insert u (entryAt a u) else scores) ∅

namespace Walk

variable {Γ K : Type} [Walkable Γ] [Scalar K]

/-- Moves the score of one node along its links. -/
def spreadSparse (w : Weighting K) (alpha : K) (next : Scores K) (u : Nat) (score : K) :
    Walk Γ (Scores K) := do
  let (links, total) ← weighLinks w u true
  if total == 0 then pure (Scores.add next u ((1 - alpha) * score))
  else pure (links.foldl (fun next (v, weight) =>
    Scores.add next v ((1 - alpha) * (weight / total) * score)) next)

/-- One round over a map. -/
def roundSparse (w : Weighting K) (alpha : K) (scores : Scores K) : Walk Γ (Scores K) := do
  let start ← start
  scores.toList.foldlM (fun next (u, score) => spreadSparse w alpha next u score)
    ((∅ : Scores K).insert start alpha)

/-- The given number of rounds over a map. -/
def roundsSparse (w : Weighting K) (alpha : K) : Nat → Scores K → Walk Γ (Scores K)
  | 0, scores => pure scores
  | n + 1, scores => do roundsSparse w alpha n (← roundSparse w alpha scores)

/-- Power iteration over a map. -/
def powerSparse (w : Weighting K) (o : WalkOptions K) : Walk Γ (Scores K) := do
  let start ← start
  roundsSparse w o.alpha o.maxDepth ((∅ : Scores K).insert start 1)

/-- Moves the score of one node along its links; a score that is not positive stays behind. -/
def spreadDense (w : Weighting K) (alpha : K) (next : Array K) (u : Nat) (score : K) :
    Walk Γ (Array K) := do
  if score ≤ 0 then pure next
  else
    let (links, total) ← weighLinks w u true
    if total == 0 then pure (addAt next u ((1 - alpha) * score))
    else pure (links.foldl (fun next (v, weight) =>
      addAt next v (score * (1 - alpha) * (weight / total))) next)

/-- One round over an array. -/
def roundDense (w : Weighting K) (alpha : K) (scores : Array K) : Walk Γ (Array K) := do
  let root ← start
  ((List.range scores.size).filter (root ≤ ·)).foldlM
    (fun next u => spreadDense w alpha next u (entryAt scores u)) (putAt #[] root alpha)

/-- The given number of rounds over an array. -/
def roundsDense (w : Weighting K) (alpha : K) : Nat → Array K → Walk Γ (Array K)
  | 0, scores => pure scores
  | n + 1, scores => do roundsDense w alpha n (← roundDense w alpha scores)

/-- Power iteration over an array. -/
def powerDense (w : Weighting K) (o : WalkOptions K) : Walk Γ (Array K) := do
  let root ← start
  roundsDense w o.alpha o.maxDepth (putAt #[] root 1)

end Walk

end ProofWalk
