import ProofWalk.Prover.Push

/-!
# Push by priority

The nodes wait in a queue with the largest residual per link in front; of equal ones the smaller
node comes first. An entry whose residual has changed since it was made is passed over. The walk
ends when the queue is empty or when it has taken `1 / epsilon` current entries, rounded up.

## Main definitions

* `PushQueue` — a queue of nodes by residual per link
* `Walk.pushByPriority` — the walk
-/

namespace ProofWalk

/-- A node waiting with its residual per link. -/
structure QueueEntry (K : Type) where
  score : K
  node : Nat

/-- The order of the queue: the larger score first, of equal scores the smaller node. -/
def QueueEntry.compare {K : Type} [Scalar K] (a b : QueueEntry K) : Ordering :=
  (Scalar.order b.score a.score).then (Ord.compare a.node b.node)

/-- A queue: every entry with the number of times it waits. -/
abbrev PushQueue (K : Type) [Scalar K] := Std.TreeMap (QueueEntry K) Nat QueueEntry.compare

namespace PushQueue

variable {K : Type} [Scalar K]

/-- The queue with an entry added. -/
def push (q : PushQueue K) (e : QueueEntry K) : PushQueue K :=
  q.alter e fun n => some (n.getD 0 + 1)

/-- The first entry and the queue without it. -/
def pop? (q : PushQueue K) : Option (QueueEntry K × PushQueue K) :=
  match q.minKey? with
  | none => none
  | some e =>
    let n := (q[e]?).getD 0
    some (e, if n ≤ 1 then q.erase e else q.insert e (n - 1))

end PushQueue

section
variable {K : Type} [Scalar K]

/-- What one push of residual `r` does, links without weight included. -/
def DenseMass.pushAll (o : WalkOptions K) (u : Nat) (links : List (Nat × K)) (total r : K)
    (m : DenseMass K) : DenseMass K :=
  let settled := addAt m.settled u (o.alpha * r)
  let residual := putAt m.residual u ((1 - o.alpha) * o.stay * r)
  { settled
    residual := links.foldl (fun residual (v, weight) =>
      addAt residual v ((1 - o.alpha) * (1 - o.stay) * (weight / total) * r)) residual }

/-- Pushes a node while its residual per link exceeds `epsilon`, at most `limit` times. -/
def DenseMass.drainAll (o : WalkOptions K) (degree : K) (u : Nat) (links : List (Nat × K))
    (total : K) : Nat → DenseMass K → Option (DenseMass K)
  | 0, _ => none
  | limit + 1, m =>
    let r := entryAt m.residual u
    if o.epsilon < r / degree then
      drainAll o degree u links total limit (m.pushAll o u links total r)
    else some m

end

/-- The distinct numbers of a list in order. -/
def distinctSorted (xs : List Nat) : List Nat :=
  xs.mergeSort.foldr (fun x seen => if seen.head? = some x then seen else x :: seen) []

namespace Walk

variable {Γ K : Type} [Walkable Γ] [Scalar K]

/-- Adds nodes to the queue with their residual per link. -/
def enqueue (m : DenseMass K) (q : PushQueue K) (nodes : List Nat) : Walk Γ (PushQueue K) :=
  nodes.foldlM (fun q v => do
    let degree ← degree v
    pure (q.push { score := entryAt m.residual v / degree, node := v })) q

/-- Takes up to `taken` current entries off the queue and pushes their nodes; goes through at most
`limit` entries, and pushes a node at most `bound` times in a row. -/
def serve (w : Weighting K) (o : WalkOptions K) (bound : Nat) :
    Nat → Nat → DenseMass K → PushQueue K → Walk Γ (DenseMass K)
  | 0, _, _, _ => throw .walkUnfinished
  | _, 0, m, _ => pure m
  | limit + 1, taken + 1, m, q => do
    match q.pop? with
    | none => pure m
    | some (head, q) =>
      let u := head.node
      let degree ← degree u
      if !(entryAt m.residual u / degree == head.score) then serve w o bound limit (taken + 1) m q
      else if head.score ≤ o.epsilon then serve w o bound limit taken m q
      else
        let (links, total) ← weighLinks w u true
        if total == 0 then serve w o bound limit taken (m.absorb u) q
        else match m.drainAll o degree u links total bound with
          | none => throw .walkUnfinished
          | some m =>
            let q ← enqueue m q (distinctSorted (u :: links.map (·.1)))
            serve w o bound limit taken m q

/-- The push by priority. The bound is on entries of the queue, and on the pushes of a node in a row. -/
def pushByPriority (w : Weighting K) (o : WalkOptions K) (bound : Nat := walkLimit) :
    Walk Γ (DenseMass K) := do
  let root ← start
  let degree ← degree root
  let q := (∅ : PushQueue K).push { score := 1 / degree, node := root }
  serve w o bound bound (Scalar.ceil (1 / o.epsilon)) { settled := #[], residual := putAt #[] root 1 } q

end Walk

end ProofWalk
