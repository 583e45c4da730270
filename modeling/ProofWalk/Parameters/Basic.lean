import ProofWalk.Scalar
import Std.Data.TreeMap

/-!
# Parameters

The weights of features by name. Beside each weight stands the training clock at which
regularization last reached it, so that decay can be put off and made up for later.

## Main definitions

* `Parameters` — weights with their clocks, by name
* `Parameters.get?`, `Parameters.set`, `Parameters.adjust`, `Parameters.update`
* `Parameters.touch`, `Parameters.touched` — the clocks
-/

namespace ProofWalk

/-- A weight, and the clock at which regularization last reached it. -/
structure Slot (K : Type) where
  weight : K
  touched : Nat

/-- The weights of features by name. -/
structure Parameters (K : Type) where
  slots : Std.TreeMap String (Slot K)

namespace Parameters

section
variable {K : Type}

/-- No weights. -/
def empty : Parameters K := { slots := ∅ }

instance : Inhabited (Parameters K) := ⟨empty⟩

/-- The weight of a feature. -/
def get? (p : Parameters K) (name : String) : Option K := (p.slots[name]?).map (·.weight)

/-- The weight of a feature, or `default` if it has none. -/
def getD (p : Parameters K) (name : String) (default : K) : K := (p.get? name).getD default

/-- Whether a feature has a weight. -/
def contains (p : Parameters K) (name : String) : Bool := p.slots.contains name

/-- The parameters with the weight of a feature set; its clock stays. -/
def set (p : Parameters K) (name : String) (weight : K) : Parameters K :=
  { slots := p.slots.alter name fun
      | some s => some { s with weight }
      | none => some { weight, touched := 0 } }

/-- The parameters with a weight for a feature that has none. -/
def insertIfAbsent (p : Parameters K) (name : String) (weight : K) : Parameters K :=
  if p.contains name then p else p.set name weight

/-- The parameters with the weight of a feature changed; one without a weight starts from
`initial`. -/
def update (p : Parameters K) (name : String) (initial : K) (f : K → K) : Parameters K :=
  p.set name (f (p.getD name initial))

/-- The parameters with an amount added to the weight of a feature, which is zero before its first
mention. -/
def adjust [Scalar K] (p : Parameters K) (name : String) (delta : K) : Parameters K :=
  p.update name 0 (· + delta)

/-- The clock at which regularization last reached a feature. -/
def touched (p : Parameters K) (name : String) : Nat := ((p.slots[name]?).map (·.touched)).getD 0

/-- The parameters with the clock of a feature moved forward; a clock never goes back, and a
feature without a weight has none. -/
def touch (p : Parameters K) (name : String) (clock : Nat) : Parameters K :=
  { slots := p.slots.alter name fun
      | some s => some { s with touched := max s.touched clock }
      | none => none }

/-- The number of features. -/
def size (p : Parameters K) : Nat := p.slots.size

/-- The features in the order of their names. -/
def names (p : Parameters K) : List String := p.slots.keys

/-- Names and weights in the order of the names. -/
def toList (p : Parameters K) : List (String × K) := p.slots.toList.map fun (n, s) => (n, s.weight)

/-- The parameters of pairs; of two with the same name the later one counts. -/
def ofList (pairs : List (String × K)) : Parameters K :=
  pairs.foldl (fun p (name, weight) => p.set name weight) empty

end

end Parameters

end ProofWalk
