import ProofWalk.Decimal.Layout
import ProofWalk.Decimal.Reader
import ProofWalk.Error
import ProofWalk.Files
import ProofWalk.Parameters.Basic
import ProofWalk.Text.Lines

/-!
# Parameter files

A line of a parameter file is the name of a feature, a tab and its weight; the last tab of the line
separates them. Blank lines and comments hold no parameter. A weight is finite.

## Main definitions

* `Parameters.parseLine?`, `Parameters.parse?` — reading
* `Parameters.text` — the written form, in the order of the names
* `Parameters.load`, `Parameters.save`
-/

namespace ProofWalk.Parameters

/-- The parts of a text before and after the last occurrence of a separator. -/
def splitLast (sep : Char) (s : List Char) : Option (List Char × List Char) :=
  let reversed := s.reverse
  match reversed.dropWhile (· != sep) with
  | [] => none
  | _ :: before => some (before.reverse, (reversed.takeWhile (· != sep)).reverse)

/-- The parameter on a line; `number` is the number of the line in an error. -/
def parseLine? (line : String) (number : Nat) : Except Error (Option (String × Float)) :=
  let chars := (line.toList.reverse.dropWhile (· == '\r')).reverse
  if Text.isAllBlank chars || chars.head? == some '#' then .ok none
  else
    match splitLast '\t' chars with
    | none => .error (.malformedParameter number .shape)
    | some (name, weight) =>
      let weight := Text.trim weight
      match Decimal.readChars? weight with
      | none => .error (.malformedParameter number (.weightNotNumber (String.ofList weight)))
      | some w =>
        if w.isFinite then .ok (some (String.ofList name, w))
        else .error (.nonFiniteParameter (String.ofList name) (String.ofList weight) number)

/-- Adds the parameters on numbered lines; of two with the same name the later one counts. -/
def addLines (p : Parameters Float) : List (Nat × String) → Except Error (Parameters Float)
  | [] => .ok p
  | (number, line) :: rest => do
    match ← parseLine? line number with
    | none => addLines p rest
    | some (name, weight) => addLines (p.set name weight) rest

/-- Reads the written form. -/
def parse? (text : String) : Except Error (Parameters Float) :=
  addLines empty (Text.numbered 1 (Text.linesOf text))

/-- The line of a parameter. -/
def lineText (entry : String × Float) : String := entry.1 ++ "\t" ++ Decimal.plain entry.2 ++ "\n"

/-- The written form, in the order of the names. -/
def text (p : Parameters Float) : String := String.join (p.toList.map lineText)

/-- Reads parameters from a file. -/
def load {m : Type → Type} [Monad m] [Files m] (path : String) :
    ExceptT Error m (Parameters Float) := do
  match ← Files.read? (m := m) path with
  | none => throw (.learnFile path)
  | some text =>
    match parse? text with
    | .ok p => pure p
    | .error e => throw e

/-- Writes parameters to a file. -/
def save {m : Type → Type} [Monad m] [Files m] (p : Parameters Float) (path : String) :
    ExceptT Error m Unit := do
  if ← Files.write (m := m) path p.text then pure () else throw (.learnFile path)

end ProofWalk.Parameters
