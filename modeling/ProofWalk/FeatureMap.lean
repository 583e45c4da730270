/-!
# Feature maps

The features that label one step of a proof: names with weights, in the order of the names and
each name once.

## Main definitions

* `FeatureMap` — names with weights, ordered by name
* `FeatureMap.insert` — sets the weight of a name
* `FeatureMap.add` — adds to the weight of a name
* `FeatureMap.merge` — adds every weight of another map
-/

namespace ProofWalk

/-- Names with weights, ordered by name. -/
abbrev FeatureMap := List (String × Float)

namespace FeatureMap

/-- Sets the weight of a name to what `f` makes of its present weight. -/
def alter (name : String) (f : Option Float → Float) : FeatureMap → FeatureMap
  | [] => [(name, f none)]
  | (n, w) :: r =>
    if n = name then (n, f (some w)) :: r
    else if name < n then (name, f none) :: (n, w) :: r
    else (n, w) :: alter name f r

/-- Sets the weight of a name. -/
def insert (name : String) (weight : Float) (m : FeatureMap) : FeatureMap :=
  m.alter name fun _ => weight

/-- Adds to the weight of a name, which is zero before its first mention. -/
def add (name : String) (weight : Float) (m : FeatureMap) : FeatureMap :=
  m.alter name fun w => w.getD 0 + weight

/-- Adds every weight of another map. -/
def merge (into added : FeatureMap) : FeatureMap :=
  added.foldl (fun m (name, weight) => m.add name weight) into

/-- The map of one feature. -/
def single (name : String) (weight : Float) : FeatureMap := [(name, weight)]

/-- The map of pairs in any order; of two with the same name the later one counts. -/
def ofPairs (pairs : List (String × Float)) : FeatureMap :=
  pairs.foldl (fun m (name, weight) => insert name weight m) []

end FeatureMap

end ProofWalk
