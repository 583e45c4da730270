import ProofWalk.Error

/-!
# Registries

Components of one kind by the names that they are chosen by. A name stands for one component: the
one that was registered last.

## Main definitions

* `Registry`, `Registry.register`, `Registry.find?`
* `Registry.choose` — the component of a name, or the error that there is none
-/

namespace ProofWalk

/-- Components by name, each name once. -/
structure Registry (α : Type) where
  entries : List (String × α)

namespace Registry

variable {α : Type}

/-- No components. -/
def empty : Registry α := { entries := [] }

/-- Puts a component under a name, in place of the one that it stood for. -/
def register (r : Registry α) (name : String) (component : α) : Registry α :=
  if r.entries.any (·.1 == name) then
    { entries := r.entries.map fun e => if e.1 == name then (name, component) else e }
  else { entries := r.entries ++ [(name, component)] }

/-- The registry of listed components under their names. -/
def ofList (name : α → String) (components : List α) : Registry α :=
  components.foldl (fun r a => r.register (name a) a) empty

/-- The component of a name. -/
def find? (r : Registry α) (name : String) : Option α := r.entries.lookup name

/-- Whether a name stands for a component. -/
def handles (r : Registry α) (name : String) : Bool := (r.find? name).isSome

/-- The number of names. -/
def size (r : Registry α) : Nat := r.entries.length

/-- The names in order. -/
def names (r : Registry α) : List String := (r.entries.map (·.1)).mergeSort

/-- The component of a name that was chosen. -/
def choose (r : Registry α) (kind : Component) (name : String) : Except Error α :=
  match r.find? name with
  | some component => .ok component
  | none => .error (.unknownComponent kind name)

end Registry

end ProofWalk
