import ProofWalk.Logic.Basic

/-!
# Numbering variables

Which variables a query or a rule holds does not matter, only where they agree. Numbering them by
their first occurrence picks one among all queries, or rules, that differ in nothing else.

## Main definitions

* `Goal.numbered`, `Query.numbered`, `Rule.numbered`
-/

namespace ProofWalk

/-- A variable with its place in an order as its serial. -/
def Variable.placedIn (order : List Variable) (v : Variable) : Variable :=
  { v with serial := (order.findIdx? (· == v)).getD order.length }

/-- A goal whose variables have their places in an order as serials. -/
def Goal.placedIn (order : List Variable) (g : Goal) : Goal :=
  g.mapVariables fun v => .var (v.placedIn order)

/-- A goal with its variables numbered by first occurrence. -/
def Goal.numbered (g : Goal) : Goal := g.placedIn (firstOccurrences g.vars)

/-- A query with its variables numbered by first occurrence. -/
def Query.numbered (q : Query) : Query :=
  { head := q.head.placedIn q.vars, body := q.body.map (Goal.placedIn q.vars) }

/-- A weight whose variable has its place in an order as serial. -/
def FeatureWeight.placedIn (order : List Variable) : FeatureWeight → FeatureWeight
  | unit => unit
  | fixed w => fixed w
  | bound v => bound (v.placedIn order)

/-- The variables of a feature in the order of its text. -/
def FeatureTemplate.vars (f : FeatureTemplate) : List Variable :=
  f.goal.vars ++ f.weight.var?.toList ++ f.findall.flatMap Goal.vars

/-- A feature whose variables have their places in an order as serials. -/
def FeatureTemplate.placedIn (order : List Variable) (f : FeatureTemplate) : FeatureTemplate :=
  { goal := f.goal.placedIn order, weight := f.weight.placedIn order
    findall := f.findall.map (Goal.placedIn order) }

/-- The distinct variables of a rule in order of first occurrence. -/
def Rule.vars (r : Rule) : List Variable :=
  firstOccurrences ((r.lhs :: r.rhs).flatMap Goal.vars ++
    r.features.flatMap FeatureTemplate.vars)

/-- A rule with its variables numbered by first occurrence. -/
def Rule.numbered (r : Rule) : Rule :=
  { lhs := r.lhs.placedIn r.vars, rhs := r.rhs.map (Goal.placedIn r.vars)
    features := r.features.map (FeatureTemplate.placedIn r.vars) }

end ProofWalk
