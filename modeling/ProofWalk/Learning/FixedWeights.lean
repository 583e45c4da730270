import ProofWalk.FeatureTable
import ProofWalk.Parameters.Basic
import ProofWalk.Text.Lines

/-!
# Fixed weights

Which features training must not move. The rules are tried in order and the first that matches a
feature decides; a feature that none matches is trainable. The features that the program itself
gives to edges are fixed by the first rules of every list.

In the written form, rules are separated by colons. A rule is a feature, or the start of features
followed by a star; `=y` behind it says that they are fixed, as does nothing, and any other word
behind an equals sign says that they are not.

## Main definitions

* `FixedRule`, `FixedWeights`
* `FixedWeights.parse` — the written form
* `FixedWeights.isFixed`
-/

namespace ProofWalk

/-- A rule: the features it is about, all that start with `stem` or that one alone, and whether they
are fixed. -/
structure FixedRule where
  stem : String
  byStart : Bool
  fixed : Bool
deriving Repr, DecidableEq

namespace FixedRule

/-- The rule of a pattern; a star at its end stands for any text. -/
def ofPattern (pattern : String) (fixed : Bool) : FixedRule :=
  match pattern.toList.reverse with
  | '*' :: stem => { stem := String.ofList stem.reverse, byStart := true, fixed }
  | _ => { stem := pattern, byStart := false, fixed }

/-- Whether a rule is about a feature. -/
def claims (r : FixedRule) (feature : String) : Bool :=
  if r.byStart then r.stem.toList.isPrefixOf feature.toList else feature == r.stem

/-- What a rule says. -/
def text (r : FixedRule) : String :=
  "if feature " ++ (if r.byStart then "starts with " else "is ") ++ r.stem ++ " it is " ++
    (if r.fixed then "" else "not ") ++ "fixed"

end FixedRule

/-- Rules, of which the first that matches decides. -/
structure FixedWeights where
  rules : List FixedRule
deriving Repr, DecidableEq

namespace FixedWeights

/-- The rules that every list begins with. -/
def standard : FixedWeights :=
  { rules := [restartFeature, loopFeature, startLoopFeature].map (FixedRule.ofPattern · true) }

/-- The rule of an entry of the written form. -/
def parseRule (entry : List Char) : FixedRule :=
  let pattern := String.ofList (entry.takeWhile (· != '='))
  match entry.dropWhile (· != '=') with
  | [] => .ofPattern pattern true
  | _ :: decision => .ofPattern pattern (decision == ['y'])

/-- The rules of the written form. -/
def parse (spec : String) : FixedWeights :=
  let entries := (Text.splitAt ':' spec.toList).filter fun e => !e.isEmpty
  { rules := standard.rules ++ entries.map parseRule }

/-- The rules with one more that fixes a pattern. -/
def addRule (w : FixedWeights) (pattern : String) : FixedWeights :=
  { rules := w.rules ++ [.ofPattern pattern true] }

/-- Whether training must not move a feature. -/
def isFixed (w : FixedWeights) (feature : String) : Bool :=
  match w.rules.find? (·.claims feature) with
  | some r => r.fixed
  | none => false

/-- The parameters with the first weight of a fixed feature: one, unless it has a weight. -/
def introduce {K : Type} [One K] (p : Parameters K) (feature : String) : Parameters K :=
  p.insertIfAbsent feature 1

/-- What the rules say. -/
def text (w : FixedWeights) : String := String.join (w.rules.map fun r => r.text ++ "; ")

end FixedWeights

end ProofWalk
