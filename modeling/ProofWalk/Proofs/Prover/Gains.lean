import Mathlib.Logic.Relation
import Mathlib.Tactic.LinearCombination
import ProofWalk.Proofs.Prover.Ledger

/-!
# What pushes preserve

Say that mass gains something for every node at which it settles, and that every node promises what a
unit of mass that starts there will gain. As long as promises are kept on average, a push changes
nothing of what all mass has gained and is promised together: what settles gains what it is owed, and
what is passed on is promised the rest. Gains of one everywhere show that no mass is lost, and gains
at one node only give its PageRank.

## Main definitions

* `Promises` — what a unit of mass at each node will gain
* `Ledger.worth` — what mass has gained and is promised
* `Ledger.Balanced` — the worth of a ledger is what the start was promised
* `Ledger.Accounts` — what balance comes to

## Main results

* `Ledger.PushesTo.balanced` — pushes preserve balance
* `Ledger.Balanced.mass`, `Ledger.Balanced.pageRank` — what balance says of mass and of scores
-/

namespace ProofWalk

open Finsupp

/-- What a unit of mass at a node is promised: where links weigh nothing all of it settles, elsewhere
a share of `alpha` does, and the rest stays or moves on. Only nodes whose links are given count. -/
def Promises (o : WalkOptions ℝ) (out : Nat → Option (List (Nat × ℝ))) (g f : Nat → ℝ) : Prop :=
  ∀ u links, out u = some links →
    let total := (links.map (·.2)).sum
    if total = 0 then f u = g u
    else f u = o.alpha * g u + (1 - o.alpha) *
      (o.stay * f u + (1 - o.stay) * (links.map fun l => l.2 / total * f l.1).sum)

/-- Who settles anywhere gains one. -/
theorem promises_one (o : WalkOptions ℝ) (out : Nat → Option (List (Nat × ℝ))) :
    Promises o out (fun _ => 1) fun _ => 1 := by
  intro u links _
  by_cases total : (links.map (·.2)).sum = 0
  · simp [total]
  · have shares : (links.map fun l => l.2 / (links.map (·.2)).sum * 1).sum = 1 := by
      simp only [mul_one, div_eq_mul_inv]
      rw [List.sum_map_mul_right, mul_inv_cancel₀ total]
    simp only [if_neg total, shares]
    ring

/-! ### Sums over mass -/

/-- The sum of amounts by node, each times a value of its node. -/
noncomputable def dot (p : ℕ →₀ ℝ) (g : Nat → ℝ) : ℝ := p.sum fun u x => x * g u

theorem dot_zero (g : Nat → ℝ) : dot 0 g = 0 := rfl

theorem dot_add (p q : ℕ →₀ ℝ) (g : Nat → ℝ) : dot (p + q) g = dot p g + dot q g :=
  sum_add_index' (fun u => zero_mul (g u)) fun u x y => add_mul x y (g u)

theorem dot_single (u : Nat) (x : ℝ) (g : Nat → ℝ) : dot (single u x) g = x * g u :=
  sum_single_index (zero_mul (g u))

theorem dot_erase (p : ℕ →₀ ℝ) (u : Nat) (g : Nat → ℝ) :
    dot (p.erase u) g = dot p g - p u * g u := by
  have whole := dot_add (p.erase u) (single u (p u)) g
  rw [erase_add_single, dot_single] at whole
  linarith

theorem dot_passed (o : WalkOptions ℝ) (links : List (Nat × ℝ)) (total r : ℝ) (f : Nat → ℝ) :
    dot (Ledger.passed o links total r) f =
      (1 - o.alpha) * (1 - o.stay) * r * (links.map fun l => l.2 / total * f l.1).sum := by
  induction links with
  | nil => rw [Ledger.passed, List.map_nil, List.map_nil, List.sum_nil, List.sum_nil, dot_zero,
      mul_zero]
  | cons l rest ih =>
    rw [Ledger.passed_cons, dot_add, dot_single, ih, List.map_cons, List.sum_cons]
    ring

/-- The sum against the function that is one at a node is the amount there. -/
theorem dot_pi_single (p : ℕ →₀ ℝ) (v : Nat) : dot p (Pi.single v 1) = p v := by
  rw [dot, Finsupp.sum, Finset.sum_eq_single v]
  · rw [Pi.single_eq_same, mul_one]
  · intro u _ other
    rw [Pi.single_eq_of_ne other, mul_zero]
  · intro absent
    rw [notMem_support_iff.1 absent, zero_mul]

/-! ### Balance -/

namespace Ledger

/-- What settled mass has gained and residual mass is promised. -/
noncomputable def worth (g f : Nat → ℝ) (l : Ledger) : ℝ := dot l.settled g + dot l.residual f

/-- Everything that is promised to a unit of mass at the start has been gained or is still
promised. -/
def Balanced (o : WalkOptions ℝ) (out : Nat → Option (List (Nat × ℝ))) (root : Nat) (l : Ledger) :
    Prop :=
  ∀ g f, Promises o out g f → l.worth g f = f root

/-- One ledger comes from another by a push of a node whose residual per link exceeds `epsilon`, or by
settling all residual of such a node if its links weigh nothing. -/
def PushesTo (o : WalkOptions ℝ) (out : Nat → Option (List (Nat × ℝ))) (l l' : Ledger) : Prop :=
  ∃ u links, ∃ degree : ℕ, out u = some links ∧ o.epsilon < l.residual u / degree ∧
    if (links.map (·.2)).sum = 0 then l' = l.absorb u
    else l' = l.push o u links (links.map (·.2)).sum

variable {o : WalkOptions ℝ} {out : Nat → Option (List (Nat × ℝ))} {root : Nat} {l l' : Ledger}

theorem worth_push {g f : Nat → ℝ} {u : Nat} {links : List (Nat × ℝ)} {total : ℝ}
    (promised : f u = o.alpha * g u + (1 - o.alpha) *
      (o.stay * f u + (1 - o.stay) * (links.map fun l => l.2 / total * f l.1).sum)) (l : Ledger) :
    (l.push o u links total).worth g f = l.worth g f := by
  rw [worth, worth, push, dot_add, dot_add, dot_add, dot_single, dot_single, dot_erase, dot_passed]
  linear_combination (-(l.residual u)) * promised

theorem worth_absorb {g f : Nat → ℝ} {u : Nat} (promised : f u = g u) (l : Ledger) :
    (l.absorb u).worth g f = l.worth g f := by
  rw [worth, worth, absorb, dot_add, dot_single, dot_erase, promised]
  ring

/-- A push changes nothing of what has been gained and is promised. -/
theorem PushesTo.worth {g f : Nat → ℝ} (pushes : l.PushesTo o out l') (promises : Promises o out g f) :
    l'.worth g f = l.worth g f := by
  obtain ⟨u, links, degree, known, -, becomes⟩ := pushes
  have promised := promises u links known
  simp only at promised
  split at becomes
  · rename_i weightless
    rw [if_pos weightless] at promised
    rw [becomes, worth_absorb promised]
  · rename_i total
    rw [if_neg total] at promised
    rw [becomes, worth_push promised]

/-- A push keeps a ledger balanced. -/
theorem PushesTo.balanced (pushes : l.PushesTo o out l') (balanced : l.Balanced o out root) :
    l'.Balanced o out root :=
  fun g f promises => (pushes.worth promises).trans (balanced g f promises)

/-- The ledger that a walk starts with is balanced. -/
theorem balanced_single (o : WalkOptions ℝ) (out : Nat → Option (List (Nat × ℝ))) (root : Nat) :
    ({ settled := 0, residual := single root 1 } : Ledger).Balanced o out root := by
  intro g f _
  rw [worth, dot_zero, dot_single, zero_add, one_mul]

/-- All mass together is one. -/
theorem Balanced.mass (balanced : l.Balanced o out root) :
    dot l.settled (fun _ => 1) + dot l.residual (fun _ => 1) = 1 :=
  balanced _ _ (promises_one o out)

/-- Without residual mass the settled mass is the PageRank: what is promised for settling at a node
and nowhere else. -/
theorem Balanced.pageRank (balanced : l.Balanced o out root) (none : l.residual = 0) (v : Nat)
    {f : Nat → ℝ} (promises : Promises o out (Pi.single v 1) f) : l.settled v = f root := by
  have worth := balanced _ f promises
  rw [Ledger.worth, none, dot_zero, add_zero, dot_pi_single] at worth
  exact worth

/-- What the mass of a walk comes to: all that the start was promised has been gained or is still
promised, all mass together is one, and when none is residual the settled mass is the PageRank. -/
structure Accounts (o : WalkOptions ℝ) (out : Nat → Option (List (Nat × ℝ))) (root : Nat)
    (l : Ledger) : Prop where
  balanced : ∀ g f, Promises o out g f → dot l.settled g + dot l.residual f = f root
  mass : dot l.settled (fun _ => 1) + dot l.residual (fun _ => 1) = 1
  pageRank : l.residual = 0 → ∀ v f, Promises o out (Pi.single v 1) f → l.settled v = f root

theorem Balanced.accounts (balanced : l.Balanced o out root) : l.Accounts o out root :=
  ⟨balanced, balanced.mass, fun none v _ promises => balanced.pageRank none v promises⟩

end Ledger

/-! ### All mass of the two forms -/

theorem Scores.values_eq (s : Scores ℝ) : s.values = s.toList.map (·.2) := by
  have folded : s.values = s.foldr (fun _ x xs => x :: xs) [] := rfl
  rw [folded, Std.TreeMap.foldr_eq_foldr_toList]
  exact (List.map_eq_foldr).symm

theorem dot_toFinsupp_one (s : Scores ℝ) : dot s.toFinsupp (fun _ => 1) = Scalar.sum s.values := by
  rw [dot, ← s.sum_toList fun u => zero_mul 1, Scalar.sum_real, s.values_eq]
  simp only [mul_one]

private theorem sum_getElem? (xs : List ℝ) :
    ∑ u ∈ Finset.range xs.length, (xs[u]?).getD 0 = xs.sum := by
  induction xs with
  | nil => rfl
  | cons x rest ih =>
    rw [List.length_cons, Finset.sum_range_succ', List.sum_cons, ← ih, add_comm]
    rfl

theorem dot_arrayFinsupp_one (a : Array ℝ) :
    dot (arrayFinsupp a) (fun _ => 1) = Scalar.sum a.toList := by
  rw [dot, arrayFinsupp, onFinset_sum _ fun u => zero_mul 1, Scalar.sum_real, ← sum_getElem?]
  simp only [mul_one, Array.length_toList, Array.getElem?_toList]
  rfl

theorem SparseMass.total_eq (m : SparseMass ℝ) :
    m.total = dot m.ledger.settled (fun _ => 1) + dot m.ledger.residual fun _ => 1 :=
  congrArg₂ (· + ·) (dot_toFinsupp_one _).symm (dot_toFinsupp_one _).symm

theorem DenseMass.total_eq (m : DenseMass ℝ) :
    m.total = dot m.ledger.settled (fun _ => 1) + dot m.ledger.residual fun _ => 1 :=
  congrArg₂ (· + ·) (dot_arrayFinsupp_one _).symm (dot_arrayFinsupp_one _).symm

end ProofWalk
