import ProofWalk.Logic.Basic
import ProofWalk.Decimal.Layout
import ProofWalk.Text.Lines

/-!
# Written form of goals, queries and rules

A goal is its functor and its arguments between parentheses, separated by commas; a goal without
arguments has no parentheses. A query separates its goals by a comma, a rule by a comma and a
blank. The features of a rule stand in one pair of braces.

## Main definitions

* `Goal.chars`, `Query.chars`, `Rule.chars` — the written forms
* `Goal.text`, `Query.text`, `Rule.text` — the same as strings
-/

namespace ProofWalk

open Text (joinWith)

/-- A term is written as its name. -/
def Term.chars : Term → List Char
  | constant c => c.toList
  | var v => v.name.toList

/-- The written form of a goal. -/
def Goal.chars (g : Goal) : List Char :=
  match g.args with
  | [] => g.functor.toList
  | args => g.functor.toList ++ '(' :: joinWith [','] (args.map Term.chars) ++ [')']

/-- The written form of a goal as a string. -/
def Goal.text (g : Goal) : String := String.ofList g.chars

/-- The written form of a query. -/
def Query.chars (q : Query) : List Char := joinWith [','] (q.goals.map Goal.chars)

/-- The written form of a query as a string. -/
def Query.text (q : Query) : String := String.ofList q.chars

/-- The written form of a weight, with the mark in front of it. -/
def FeatureWeight.chars : FeatureWeight → List Char
  | unit => []
  | fixed w => " @ ".toList ++ Decimal.plainChars w
  | bound v => " @ ".toList ++ v.name.toList

/-- The written form of a feature. -/
def FeatureTemplate.chars (f : FeatureTemplate) : List Char :=
  f.goal.chars ++ f.weight.chars ++
    match f.findall with
    | [] => []
    | goals => " : ".toList ++ joinWith [',', ' '] (goals.map Goal.chars)

/-- The written form of a rule. -/
def Rule.chars (r : Rule) : List Char :=
  let body := match r.rhs with
    | [] => []
    | goals => " :- ".toList ++ joinWith [',', ' '] (goals.map Goal.chars)
  let features := match r.features with
    | [] => []
    | fs => ' ' :: '\x7b' :: joinWith [',', ' '] (fs.map FeatureTemplate.chars) ++ ['\x7d']
  r.lhs.chars ++ body ++ features ++ ['.']

/-- The written form of a rule as a string. -/
def Rule.text (r : Rule) : String := String.ofList r.chars

end ProofWalk
