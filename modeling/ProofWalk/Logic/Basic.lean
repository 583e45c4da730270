import ProofWalk.Text.Numeral

/-!
# Terms, goals, queries and rules

The language of the program: goals apply a functor to constants and variables, a query is a
sequence of goals, and a rule resolves a goal into others and labels that step with features.
Constants compare by name. A variable has a serial beside its name, so that two variables of one
name can be told apart, as two anonymous ones must be.

## Main definitions

* `Variable`, `Term`, `Goal`, `Query`, `Rule`
* `Query.vars` — the distinct variables in order of first occurrence
* `Query.freshen` — the same query over variables that it does not hold
* `Query.substitute` — the query with values in place of its variables
-/

namespace ProofWalk

/-- A logic variable: the serial tells variables of one name apart. -/
structure Variable where
  name : String
  serial : Nat
deriving Repr, DecidableEq, Hashable

/-- An argument of a goal. -/
inductive Term where
  | constant (name : String)
  | var (v : Variable)
deriving Repr, DecidableEq

namespace Term

/-- The name of a constant. -/
def constant? : Term → Option String
  | constant c => some c
  | var _ => none

/-- The variable of a term that is one. -/
def var? : Term → Option Variable
  | constant _ => none
  | var v => some v

/-- Whether a text denotes a variable: it starts with an upper-case ASCII letter or an
underscore. -/
def denotesVariable : List Char → Bool
  | [] => false
  | c :: _ => ('A' ≤ c && c ≤ 'Z') || c == '_'

/-- A term with its variable replaced. -/
def mapVariable (f : Variable → Term) : Term → Term
  | constant c => constant c
  | var v => f v

end Term

/-- A functor applied to an argument list. -/
structure Goal where
  functor : String
  args : List Term
deriving Repr, DecidableEq

/-- The label of a predicate: its functor and its arity. -/
def predicateLabel (functor : String) (arity : Nat) : String :=
  String.ofList (functor.toList ++ '/' :: Nat.toDigits 10 arity)

/-- The arity at the end of a predicate label; a label without one has arity zero. -/
def labelArity (label : String) : Nat :=
  let reversed := label.toList.reverse
  let digits := (reversed.takeWhile (· != '/')).reverse
  if reversed.contains '/' then (Text.readCount? digits).getD 0 else 0

namespace Goal

/-- A goal whose arguments are constants. -/
def ofConstants (functor : String) (args : List String) : Goal :=
  { functor := functor, args := args.map .constant }

/-- The number of arguments. -/
def arity (g : Goal) : Nat := g.args.length

/-- The label of the predicate that the goal calls. -/
def label (g : Goal) : String := predicateLabel g.functor g.arity

/-- Whether every argument is a constant. -/
def isGround (g : Goal) : Bool := g.args.all fun t => t.constant?.isSome

/-- The variables among the arguments, repeated as they occur. -/
def vars (g : Goal) : List Variable := g.args.filterMap Term.var?

/-- A goal with its variables replaced. -/
def mapVariables (f : Variable → Term) (g : Goal) : Goal :=
  { g with args := g.args.map (Term.mapVariable f) }

end Goal

/-- Variables in order of first occurrence. -/
def firstOccurrences (vs : List Variable) : List Variable :=
  vs.foldl (fun seen v => if v ∈ seen then seen else seen ++ [v]) []

/-- A query: a first goal and the goals after it. -/
structure Query where
  head : Goal
  body : List Goal
deriving Repr, DecidableEq

namespace Query

/-- The goals in execution order. -/
def goals (q : Query) : List Goal := q.head :: q.body

/-- The distinct variables in order of first occurrence. -/
def vars (q : Query) : List Variable := firstOccurrences (q.goals.flatMap Goal.vars)

/-- A query with its variables replaced. -/
def mapVariables (f : Variable → Term) (q : Query) : Query :=
  { head := q.head.mapVariables f, body := q.body.map (Goal.mapVariables f) }

/-- A number above every serial in the query. -/
def serialBound (q : Query) : Nat :=
  (q.goals.flatMap Goal.vars).foldl (fun bound v => max bound (v.serial + 1)) 0

/-- The same query over variables that it does not hold: shared variables stay shared and names
stay as they are. -/
def freshen (q : Query) : Query :=
  q.mapVariables fun v => .var { v with serial := v.serial + q.serialBound }

/-- The query with the `i`-th value in place of its `i`-th variable; a variable without a value
stays. -/
def substitute (q : Query) (values : List (Option Term)) : Query :=
  let bound := q.vars.zip values
  q.mapVariables fun v =>
    match bound.lookup v with
    | some (some t) => t
    | _ => .var v

end Query

/-- The weight of a feature: one, a given number, or the number a variable is bound to. -/
inductive FeatureWeight where
  | unit
  | fixed (value : Float)
  | bound (v : Variable)

/-- The variable that holds a weight. -/
def FeatureWeight.var? : FeatureWeight → Option Variable
  | bound v => some v
  | _ => none

/-- A feature that a rule reports: its name and arguments, its weight, and goals whose every
solution reports the feature once. Without such goals it is reported once. -/
structure FeatureTemplate where
  goal : Goal
  weight : FeatureWeight
  findall : List Goal

/-- A rule `lhs :- rhs {features}.` -/
structure Rule where
  lhs : Goal
  rhs : List Goal
  features : List FeatureTemplate

end ProofWalk
