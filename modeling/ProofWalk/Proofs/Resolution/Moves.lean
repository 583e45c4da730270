import ProofWalk.Machine.Basic
import ProofWalk.Proofs.Resolution.Derivation
import ProofWalk.Proofs.Results

/-!
# Moves

The steps of a derivation with what the machine makes known about them: their order, the features
that label them, and the errors in the way. A rule reports its features once its head is unified; a
feature that ranges over goals adds what a search for these goals reports, each of whose solutions
reports the feature once.

Errors and labels depend on the resolvent only, not on how the machine arrived at it.

## Main definitions

* `Root` — what a derivation is for: the query, or a feature that ranges over goals
* `Resolvent.stillSilent` — which variables of the root remain without a register
* `Theory` — rules and relations with the bounds of nested searches
* `Theory.moves` — the labelled steps from a resolvent
* `Theory.nested` — what a nested search reports
-/

namespace ProofWalk

/-- What a derivation is for: its answer lists what `vars` stand for, and at its end it reports
`closing`. -/
structure Root where
  vars : List Variable
  closing : Option FeatureTemplate

/-- A derivation for a query reports nothing at its end. -/
def Root.ofQuery (q : Query) : Root := { vars := q.vars, closing := none }

/-- A labelled step: the features of the step, and those that the machine has reported when it
arrives. -/
structure ProofMove where
  child : Resolvent
  edge : FeatureMap
  reported : FeatureMap

/-- Rules with their numbers among those of their predicates, relations, and how far and how deep
nested searches go. -/
structure Theory where
  clauses : List (Rule × Nat)
  relations : List Relation
  findallDepth : Nat
  nestingLimit : Nat

/-! ### Reports -/

/-- The constant that an argument of a feature stands for. -/
def Registers.argument (regs : Registers) (value : Substitution) : Term → Except Error String
  | .constant c => .ok c
  | .var v =>
    match value v with
    | .constant c => .ok c
    | .var _ => .error (.unboundFeatureVariable (regs.operand v))

/-- The weight that a text stands for. -/
def readWeight (text : String) : Except Error Float :=
  match Decimal.read? text with
  | some w => .ok w
  | none => .error (.badWeight text)

/-- The weight that a term stands for. -/
def weightOf : Term → Except Error Float
  | .constant c => readWeight c
  | .var _ => .error (.badWeight "<unbound>")

/-- The number that a weight stands for. -/
def FeatureWeight.number (value : Substitution) : FeatureWeight → Except Error Float
  | .unit => .ok 1
  | .fixed w => weightOf (.constant (Decimal.plain w))
  | .bound v => weightOf (value v)

/-- The feature that a template reports: its name and its weight. -/
def FeatureTemplate.report (f : FeatureTemplate) (regs : Registers) (value : Substitution) :
    Except Error (String × Float) := do
  let args ← f.goal.args.mapM (regs.argument value)
  let weight ← f.weight.number value
  return (({ functor := f.goal.functor, args, weight } : FeatureDraft).name, weight)

/-- The feature of a rule that states none. -/
def clauseNumber (lhs : Goal) (number : Nat) : FeatureDraft :=
  { functor := "id"
    args := [lhs.functor, String.ofList (Decimal.natDigits lhs.arity),
      String.ofList (Decimal.natDigits number)]
    weight := 1 }

namespace Resolvent

/-- What the variables of the root stand for. -/
def value (r : Resolvent) (root : Root) : Substitution := fun v =>
  ((root.vars.zip r.answer).lookup v).getD (.var v)

theorem value_eq {r : Resolvent} {root : Root} {f : Substitution} (answer : root.vars.map f = r.answer)
    {v : Variable} (known : v ∈ root.vars) : r.value root v = f v := by
  rw [value, ← answer, lookup_zip_map known, Option.getD_some]

/-- The variables of the root that are still without a register when the leftmost goal is called. -/
def stillSilent (r : Resolvent) (root : Root) (silent : List Variable) : List Variable :=
  match r.goals with
  | [] => silent
  | g :: _ => silent.filter fun v => r.value root v ∉ g.args

/-- What has been reported when a step arrives: a derivation that ends reports the closing feature
alone. -/
def finish (r : Resolvent) (root : Root) (features : FeatureMap) : Except Error FeatureMap :=
  match r.goals, root.closing with
  | [], some f => do
    let (name, weight) ← f.report ⟨root.vars⟩ (r.value root)
    return .single name weight
  | _, _ => .ok features

end Resolvent

/-- What a relation is asked about a goal: the constants among the arguments, as many as the label of
the goal speaks of. -/
def Goal.callArgs (g : Goal) : CallArgs := (g.args.map Term.constant?).take (labelArity g.label)

/-- Resolves the leftmost goal with a tuple for its last arguments. -/
def Resolvent.byValues? (r : Resolvent) (values : List String) : Option Resolvent :=
  match r.goals with
  | [] => none
  | goal :: rest =>
    (unifier? ((values.map Term.constant).zip (goal.args.drop (goal.arity - values.length)))).map
      fun θ => Resolvent.mapVariables θ { answer := r.answer, goals := rest, next := r.next }

/-- The moves that a list of alternatives offers, in their order; the first error counts. -/
def movesBy {α : Type} (move : α → Except Error (Option ProofMove)) :
    List α → Except Error (List ProofMove)
  | [] => .ok []
  | a :: rest => do
    let first ← move a
    let others ← movesBy move rest
    return first.toList ++ others

namespace Theory

/-- Adds what a feature of a rule reports, where the rule's variables stand for `value` and `nested`
answers the features that range over goals. -/
def addReport (nested : Root → Resolvent → Except Error FeatureMap) (regs : Registers)
    (value : Substitution) (next : Nat) (found : FeatureMap) (f : FeatureTemplate) :
    Except Error FeatureMap :=
  if f.findall.isEmpty then do
    let (name, weight) ← f.report regs value
    return found.insert name weight
  else do
    let more ← nested { vars := regs.order, closing := some f }
      { answer := regs.order.map value, goals := f.findall.map (·.mapVariables value), next }
    return FeatureMap.merge found more

/-- What the features of a rule report. -/
def label (nested : Root → Resolvent → Except Error FeatureMap) (rule : Rule) (number : Nat)
    (value : Substitution) (next : Nat) : Except Error FeatureMap :=
  if rule.features.isEmpty then
    let feature := clauseNumber rule.lhs number
    .ok (FeatureMap.insert feature.name feature.weight [])
  else rule.features.foldlM (addReport nested (Registers.ofRule rule) value next) []

/-- The move by a rule, if its head unifies and it reports something. -/
def byClause (nested : Root → Resolvent → Except Error FeatureMap) (root : Root) (r : Resolvent)
    (clause : Rule × Nat) : Except Error (Option ProofMove) :=
  match r.byRule? clause.1 with
  | none => .ok none
  | some (θ, child) => do
    let reported ← label nested clause.1 clause.2 (θ.after (apart r.next)) child.next >>=
      child.finish root
    return if reported.isEmpty then none else some { child, edge := reported, reported }

/-- The move by a row. -/
def byRow (root : Root) (r : Resolvent) (row : Row) : Except Error (Option ProofMove) :=
  match r.byValues? row.values with
  | none => .ok none
  | some child => do
    let reported ← child.finish root []
    return some { child, edge := row.features, reported }

/-- The moves by the rows of relations. -/
def byRelations (root : Root) (r : Resolvent) (goal : Goal) :
    List Relation → Except Error (List ProofMove)
  | [] => .ok []
  | relation :: rest =>
    if relation.claims goal.label then do
      let rows ← relation.lookup goal.label goal.callArgs
      let here ← movesBy (byRow root r) rows
      let others ← byRelations root r goal rest
      return here ++ others
    else byRelations root r goal rest

/-- The labelled steps from a resolvent: by the rules of its leftmost goal, then by relations. -/
def movesWith (t : Theory) (nested : Root → Resolvent → Except Error FeatureMap) (root : Root)
    (r : Resolvent) : Except Error (List ProofMove) :=
  match r.goals with
  | [] => .ok []
  | goal :: _ => do
    let byRules ← movesBy (byClause nested root r)
      (t.clauses.filter fun clause => clause.1.lhs.label = goal.label)
    let others ← byRelations root r goal t.relations
    return byRules ++ others

/-- Adds what is reported on the way to every end of a derivation within `depth` steps. -/
def search (t : Theory) (nested : Root → Resolvent → Except Error FeatureMap) (root : Root) :
    Nat → FeatureMap → Resolvent → Except Error FeatureMap
  | 0, found, _ => .ok found
  | depth + 1, found, r => do
    let moves ← t.movesWith nested root r
    moves.foldlM (fun found m =>
      if m.child.goals.isEmpty then .ok (FeatureMap.merge found m.reported)
      else search t nested root depth found m.child) found

/-- What a nested search reports; searches may lie `nesting` deep in each other. -/
def nested (t : Theory) (nesting : Nat) (root : Root) (r : Resolvent) : Except Error FeatureMap :=
  match nesting with
  | 0 => .error (.nestingTooDeep t.nestingLimit)
  | nesting + 1 => t.search (t.nested nesting) root t.findallDepth [] r

/-- The labelled steps from a resolvent. -/
def moves (t : Theory) (root : Root) (r : Resolvent) : Except Error (List ProofMove) :=
  t.movesWith (t.nested t.nestingLimit) root r

end Theory

end ProofWalk
