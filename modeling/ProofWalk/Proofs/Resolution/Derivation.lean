import ProofWalk.Proofs.Logic.Variables
import ProofWalk.Proofs.Resolution.Unification

/-!
# Derivations

The meaning of a program without regard to how it is run. A resolvent holds the goals still to prove
and what the variables of the query stand for so far. A step resolves the leftmost goal with a clause
of the same predicate, whose variables are renamed apart from all that the derivation has used, or
with a fact. Steps keep the order of the program, so that a derivation is counted as often as it
occurs.

## Main definitions

* `Resolvent`, `Resolvent.ofQuery` — goals with an answer
* `Resolvent.resolve?` — resolving the leftmost goal with a head and a body
* `Resolvent.derived` — the ends of all derivations of a length
* `Query.computedAnswers` — the answers of the derivations that leave no goal
-/

namespace ProofWalk

/-- A functor applied to constants, with a weight. -/
structure Fact where
  functor : String
  args : List String
  weight : Float

/-- The renaming that moves all serials up. -/
def apart (offset : Nat) : Substitution := fun v => .var (v.shift offset)

/-- The variables of a rule, those of its features included. -/
def Rule.occurrences (r : Rule) : List Variable :=
  (r.lhs :: (r.features.map (·.goal) ++ r.features.flatMap (·.findall) ++ r.rhs)).flatMap Goal.vars ++
    r.features.filterMap (·.weight.var?)

/-- Goals still to prove with the terms that the query's variables stand for. All variables that the
derivation has used have serials below `next`. -/
structure Resolvent where
  answer : List Term
  goals : List Goal
  next : Nat

namespace Resolvent

/-- The resolvent that a derivation of a query starts from. -/
def ofQuery (q : Query) : Resolvent :=
  { answer := q.vars.map .var, goals := q.goals, next := q.serialBound }

/-- The resolvent with a substitution applied. -/
def mapVariables (θ : Substitution) (r : Resolvent) : Resolvent :=
  { r with
    answer := r.answer.map (·.mapVariable θ)
    goals := r.goals.map (·.mapVariables θ) }

/-- Resolves the leftmost goal with a head of the same predicate, for which the body comes in; gives
the most general unifier as well. -/
def resolve? (r : Resolvent) (head : Goal) (body : List Goal) (next : Nat) :
    Option (Substitution × Resolvent) :=
  match r.goals with
  | [] => none
  | goal :: rest =>
    if head.functor = goal.functor ∧ head.arity = goal.arity then
      (unifier? (head.args.zip goal.args)).map fun θ =>
        (θ, mapVariables θ { answer := r.answer, goals := body ++ rest, next })
    else none

/-- Resolves the leftmost goal with a rule renamed apart. -/
def byRule? (r : Resolvent) (rule : Rule) : Option (Substitution × Resolvent) :=
  r.resolve? (rule.lhs.mapVariables (apart r.next)) (rule.rhs.map (·.mapVariables (apart r.next)))
    (r.next + serialBound rule.occurrences)

/-- Resolves the leftmost goal with a tuple of constants. -/
def byTuple? (r : Resolvent) (functor : String) (values : List String) : Option Resolvent :=
  (r.resolve? (.ofConstants functor values) [] r.next).map (·.2)

/-- The resolvents one step away: by the rules in order, then by the facts in order. -/
def steps (rules : List Rule) (facts : List Fact) (r : Resolvent) : List Resolvent :=
  rules.filterMap (fun rule => (r.byRule? rule).map (·.2)) ++
    facts.filterMap fun fact => r.byTuple? fact.functor fact.args

/-- The ends of all derivations with exactly the given number of steps. -/
def derived (rules : List Rule) (facts : List Fact) : Nat → Resolvent → List Resolvent
  | 0, r => [r]
  | n + 1, r => (r.steps rules facts).flatMap (derived rules facts n)

end Resolvent

namespace Query

/-- The query with a constant in place of every variable that stands for one in an answer. -/
def answered (q : Query) (answer : List Term) : Query :=
  q.mapVariables fun v =>
    match (q.vars.zip answer).lookup v with
    | some (.constant c) => .constant c
    | _ => .var v

/-- The answers of the derivations with exactly the given number of steps that leave no goal. -/
def computedAnswers (rules : List Rule) (facts : List Fact) (q : Query) (n : Nat) : List Query :=
  (((Resolvent.ofQuery q).derived rules facts n).filter (·.goals.isEmpty)).map fun r =>
    q.answered r.answer

end Query

end ProofWalk
