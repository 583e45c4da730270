import ProofWalk.FeatureMap

/-!
# Rows

What a relation outside the rules answers a call with: a tuple of constants, and the features that
label the step.
-/

namespace ProofWalk

/-- A tuple that answers a call, and the features of the step. -/
structure Row where
  values : List String
  features : FeatureMap

/-- The arguments of a call: the constants of the bound ones. -/
abbrev CallArgs := List (Option String)

/-- Whether a tuple agrees with every bound argument. -/
def agrees : List String → CallArgs → Bool
  | [], [] => true
  | v :: vs, a :: as => (match a with | some c => c == v | none => true) && agrees vs as
  | _, _ => false

/-- The feature that names a table. -/
def tableFeature (name : String) : String := "db(" ++ name ++ ")"

end ProofWalk
