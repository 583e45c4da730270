import ProofWalk.Error
import ProofWalk.Files
import ProofWalk.Text.Lines
import Std.Data.HashMap

/-!
# Feature tables

The features of a run are numbered from one in the order in which they are met. A number is a
positive 32-bit word; after the last one the counter begins again at zero, which is no number.

In the written form line `n` is the name of feature `n`.

## Main definitions

* `Numbers` — hands out feature numbers
* `FeatureTable` — names and numbers
* `FeatureTable.intern` — the number of a name, a new one if it has none
* `FeatureTable.save`, `FeatureTable.load` — the written form
-/

namespace ProofWalk

-- powers of numbers are those of the core library
attribute [local instance (2000)] instPowNat

/-- The names of the features that the program itself gives to edges: the edge back to the start,
the loop at a completed state, and that loop when the state is the start as well. -/
def restartFeature : String := "id(restart)"
@[inherit_doc restartFeature]
def loopFeature : String := "id(trueLoop)"
@[inherit_doc restartFeature]
def startLoopFeature : String := "id(trueLoopRestart)"

/-- Hands out feature numbers. -/
structure Numbers where
  next : Nat
deriving Repr, DecidableEq

namespace Numbers

/-- There are as many numbers as 32-bit words. -/
def limit : Nat := 2 ^ (32 : Nat)

/-- Numbers from a start, which is at least one. -/
def startingFrom (start : Nat) : Numbers := { next := max start 1 }

/-- The next number, and what is left. The counter goes round at its limit, and zero is no
number. -/
def take (n : Numbers) : Except Error Nat × Numbers :=
  let rest : Numbers := { next := (n.next + 1) % limit }
  (if n.next = 0 then .error .featuresExhausted else .ok n.next, rest)

/-- The written form of a number. -/
def text (number : Nat) : String := String.ofList (Nat.toDigits 10 number)

end Numbers

/-- The features of a run: numbers by name and names by number. -/
structure FeatureTable where
  numbers : Std.HashMap String Nat
  namesByNumber : Std.HashMap Nat String
  free : Numbers

namespace FeatureTable

/-- The table without features. -/
def empty : FeatureTable := { numbers := ∅, namesByNumber := ∅, free := .startingFrom 1 }

instance : Inhabited FeatureTable := ⟨empty⟩

/-- The number of a name, if it has one. -/
def number? (t : FeatureTable) (name : String) : Option Nat := t.numbers[name]?

/-- The name of a number, if it is given. -/
def name? (t : FeatureTable) (number : Nat) : Option String := t.namesByNumber[number]?

/-- The number of features. -/
def size (t : FeatureTable) : Nat := t.numbers.size

/-- The number of a name, a new one if it has none. -/
def intern (t : FeatureTable) (name : String) : Except Error Nat × FeatureTable :=
  match t.number? name with
  | some n => (.ok n, t)
  | none =>
    let (taken, free) := t.free.take
    match taken with
    | .ok n =>
      (.ok n,
        { numbers := t.numbers.insert name n
          namesByNumber := t.namesByNumber.insertIfNew n name
          free })
    | .error e => (.error e, { t with free })

/-- The names in the order of their numbers. -/
def names (t : FeatureTable) : List String :=
  (List.range (t.free.next - 1)).filterMap fun i => t.name? (i + 1)

/-- Interns names one after the other up to the first that fails. -/
def internAll (t : FeatureTable) : List String → Except Error (List Nat) × FeatureTable
  | [] => (.ok [], t)
  | name :: rest =>
    match t.intern name with
    | (.error e, t) => (.error e, t)
    | (.ok n, t) =>
      match internAll t rest with
      | (.ok ns, t) => (.ok (n :: ns), t)
      | (.error e, t) => (.error e, t)

/-- The written form. -/
def text (t : FeatureTable) : String := String.join (t.names.map (· ++ "\n"))

/-- Reads the written form; blank lines are skipped and blanks around a name are dropped. -/
def parse? (text : String) : Except Error FeatureTable :=
  let names := ((Text.linesOf text).map Text.trimmed).filter fun n => !n.isEmpty
  match empty.internAll names with
  | (.ok _, t) => .ok t
  | (.error e, _) => .error e

/-- Writes the table to a file. -/
def save {m : Type → Type} [Monad m] [Files m] (t : FeatureTable) (path : String) :
    ExceptT Error m Unit := do
  if ← Files.write (m := m) path t.text then pure () else throw (.learnFile path)

/-- Reads a table from a file. -/
def load {m : Type → Type} [Monad m] [Files m] (path : String) : ExceptT Error m FeatureTable := do
  match ← Files.read? (m := m) path with
  | none => throw (.learnFile path)
  | some text =>
    match parse? text with
    | .ok t => pure t
    | .error e => throw e

end FeatureTable

end ProofWalk
