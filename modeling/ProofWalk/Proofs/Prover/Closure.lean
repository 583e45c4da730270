import ProofWalk.Proofs.Prover.Passes
import ProofWalk.Prover.PowerIteration

/-!
# Properties of all walks

A walk asks its graph for the start, for degrees and for weighed links, and does the rest on its own. What
holds of these questions and is kept when walks are put together therefore holds of whole walks.

## Main definitions

* `Walk.Closed` — a property that is kept when walks are put together

## Main results

* `PushOps.closed_pass`, `PushOps.closed_tighten` — it holds of local push
* `Walk.Closed.serve` — of push by priority
* `Walk.Closed.spreadSparse`, `Walk.Closed.powerDense` — of power iteration
* `Walk.Closed.pathSums` — of path sums
-/

namespace ProofWalk

namespace Walk

variable {Γ K : Type} [Walkable Γ] [Scalar K]

/-- A property that holds of all questions of a walk that weighs links in one way, and is kept when walks
are put together. -/
structure Closed (P : (α : Type) → Walk Γ α → Prop) (w : Weighting K) : Prop where
  pure : ∀ {α : Type} (a : α), P α (Pure.pure a)
  throw : ∀ {α : Type} (e : Error), P α (throwThe Error e)
  bind : ∀ {α β : Type} {x : Walk Γ α} {f : α → Walk Γ β}, P α x → (∀ a, P β (f a)) → P β (x >>= f)
  start : P Nat start
  degree : ∀ u, P K (degree u)
  weighLinks : ∀ u, P _ (weighLinks w u true)

namespace Closed

variable {P : (α : Type) → Walk Γ α → Prop} {w : Weighting K} {α β : Type}

theorem foldlM (closed : Closed P w) {f : α → β → Walk Γ α} (step : ∀ a b, P α (f a b)) (bs : List β)
    (a : α) : P α (bs.foldlM f a) := by
  induction bs generalizing a with
  | nil => exact closed.pure a
  | cons b rest ih =>
    rw [List.foldlM_cons]
    exact closed.bind (step a b) fun a' => ih a'

/-! ### Power iteration -/

theorem spreadSparse (closed : Closed P w) (alpha : K) (next : Scores K) (u : Nat) (score : K) :
    P _ (spreadSparse w alpha next u score) := by
  unfold Walk.spreadSparse
  refine closed.bind (closed.weighLinks u) fun ⟨shown, total⟩ => ?_
  simp only
  split
  · exact closed.pure _
  · exact closed.pure _

theorem spreadDense (closed : Closed P w) (alpha : K) (next : Array K) (u : Nat) (score : K) :
    P _ (spreadDense w alpha next u score) := by
  unfold Walk.spreadDense
  split
  · exact closed.pure _
  refine closed.bind (closed.weighLinks u) fun ⟨shown, total⟩ => ?_
  simp only
  split
  · exact closed.pure _
  · exact closed.pure _

theorem roundsDense (closed : Closed P w) (alpha : K) (n : Nat) (scores : Array K) :
    P _ (roundsDense w alpha n scores) := by
  induction n generalizing scores with
  | zero => exact closed.pure _
  | succ n ih =>
    rw [Walk.roundsDense, roundDense]
    refine closed.bind (closed.bind closed.start fun root => ?_) ih
    exact closed.foldlM (fun next u => closed.spreadDense alpha next u _) _ _

/-- Power iteration over arrays only asks its questions. -/
theorem powerDense (closed : Closed P w) (o : WalkOptions K) : P _ (powerDense w o) :=
  closed.bind closed.start fun _ => closed.roundsDense o.alpha o.maxDepth _

/-! ### Path sums -/

/-- Path sums ask for links in their own form, and whether a node completes the proof. -/
theorem trail (closed : Closed P w) (loops : Bool) (completed : ∀ u, P Bool (isCompleted u))
    (links : ∀ u, P _ (Walk.weighLinks w u loops)) (depth u : Nat) (given : K) :
    P _ (trail w loops depth u given) := by
  induction depth generalizing u given with
  | zero => exact closed.pure _
  | succ depth ih =>
    unfold Walk.trail
    refine closed.bind (completed u) fun isComplete => ?_
    split
    · exact closed.pure _
    refine closed.bind (links u) fun ⟨shown, total⟩ => ?_
    simp only
    split
    · exact closed.pure _
    refine closed.bind closed.start fun root => closed.bind (closed.foldlM (fun left link => ?_) _ _)
      fun left => closed.pure _
    split
    · exact closed.pure _
    · exact closed.bind (ih _ _) fun more => closed.pure _

theorem pathSums (closed : Closed P w) (o : WalkOptions K) (loops : Bool)
    (completed : ∀ u, P Bool (isCompleted u)) (links : ∀ u, P _ (Walk.weighLinks w u loops)) :
    P _ (pathSums w o loops) :=
  closed.bind closed.start fun _ =>
    closed.bind (closed.trail loops completed links o.maxDepth _ _) fun _ => closed.pure _

/-! ### Push by priority -/

theorem enqueue (closed : Closed P w) (m : DenseMass K) (q : PushQueue K) (nodes : List Nat) :
    P _ (enqueue m q nodes) :=
  closed.foldlM (fun _ v => closed.bind (closed.degree v) fun _ => closed.pure _) _ _

theorem serve (closed : Closed P w) (o : WalkOptions K) (bound limit taken : Nat) (m : DenseMass K)
    (q : PushQueue K) : P _ (serve w o bound limit taken m q) := by
  induction limit generalizing taken m q with
  | zero => exact closed.throw _
  | succ limit ih =>
    cases taken with
    | zero => exact closed.pure _
    | succ taken =>
      rw [Walk.serve]
      split
      · exact closed.pure _
      refine closed.bind (closed.degree _) fun degree => ?_
      split
      · exact ih _ _ _
      split
      · exact ih _ _ _
      refine closed.bind (closed.weighLinks _) fun ⟨shown, total⟩ => ?_
      simp only
      split
      · exact ih _ _ _
      split
      · exact closed.throw _
      · exact closed.bind (closed.enqueue _ _ _) fun q => ih _ _ _

theorem pushByPriority (closed : Closed P w) (o : WalkOptions K) (bound : Nat) :
    P _ (pushByPriority w o bound) :=
  closed.bind closed.start fun root => closed.bind (closed.degree root) fun _ =>
    closed.serve o bound bound _ _ _

end Closed

end Walk

/-! ### Local push -/

namespace PushOps

open Walk

variable {Γ K M : Type} [Walkable Γ] [Scalar K] (F : PushOps K M) {P : (α : Type) → Walk Γ α → Prop}
  {w : Weighting K} (closed : Closed P w) (o : WalkOptions K) (bound : Nat)

include closed

theorem closed_pass (threshold : K) (limit depth u : Nat) (m : M) :
    P _ (F.pass w o bound threshold limit depth u m) := by
  induction limit generalizing depth u m with
  | zero => exact closed.throw _
  | succ limit ih =>
    unfold PushOps.pass
    split
    · exact closed.pure _
    refine closed.bind (closed.degree u) fun degree => ?_
    split
    · exact closed.pure _
    refine closed.bind (closed.weighLinks u) ?_
    rintro ⟨shown, total⟩
    simp only
    split
    · exact closed.pure _
    split
    · exact closed.throw _
    refine closed.bind closed.start fun root => closed.foldlM ?_ _ _
    rintro ⟨pushes, m⟩ ⟨v, weight⟩
    split
    · exact closed.pure _
    · exact closed.bind (ih _ _ _) fun result => closed.pure _

theorem closed_tighten (root limit : Nat) (threshold : K) (m : M) :
    P _ (F.tighten w o bound root limit threshold m) := by
  induction limit generalizing threshold m with
  | zero => exact closed.throw _
  | succ limit ih =>
    unfold PushOps.tighten
    refine closed.bind (F.closed_pass closed o bound _ bound 1 root m) ?_
    rintro ⟨pushes, m⟩
    simp only
    split
    · exact closed.pure _
    · exact ih _ _

end PushOps

end ProofWalk
