import ProofWalk.Bytecode.Instruction

/-!
# Programs

A program is a sequence of instructions and, for each predicate, the addresses at which its clauses
begin. In the written form a label stands on a line of its own above the instruction it belongs to.

## Main definitions

* `Program` — instructions and clause entries
* `Program.addresses` — where the clauses of a predicate begin
* `Program.parse?`, `Program.text` — the written form
-/

namespace ProofWalk

/-- Instructions, and the clause entries as pairs of label and address in the order in which they
were added. -/
structure Program where
  code : Array Instruction
  entries : List (String × Nat)
deriving Repr, DecidableEq

namespace Program

/-- The program without instructions. -/
def empty : Program := { code := #[], entries := [] }

instance : Inhabited Program := ⟨empty⟩

/-- The number of instructions. -/
def size (p : Program) : Nat := p.code.size

/-- Whether a predicate has clauses. -/
def defines (p : Program) (label : String) : Bool := p.entries.any fun e => e.1 == label

/-- Where the clauses of a predicate begin, in source order. -/
def addresses (p : Program) (label : String) : List Nat :=
  p.entries.filterMap fun (l, address) => if l = label then some address else none

/-- A program with code added at its end, the first instruction under the labels. -/
def append (p : Program) (labels : List String) (code : List Instruction) : Program :=
  { code := p.code ++ code.toArray
    entries := p.entries ++ labels.map fun l => (l, p.size) }

/-- A line of the written form. -/
inductive Line where
  | blank
  | label (name : String)
  | instruction (text : String)
deriving Repr, DecidableEq

/-- What a line holds. A label ends in a colon and holds no tab. -/
def Line.ofChars (line : List Char) : Line :=
  let line := (line.reverse.dropWhile fun c => c == '\r' || c == '\n').reverse
  let trimmed := Text.trim line
  if trimmed.isEmpty then .blank
  else match trimmed.reverse with
    | ':' :: c :: name =>
      if trimmed.contains '\t' then .instruction (String.ofList (line.dropWhile (· == ' ')))
      else .label (String.ofList (c :: name).reverse)
    | _ => .instruction (String.ofList (line.dropWhile (· == ' ')))

/-- Reads numbered lines into a program; `waiting` are the labels that have no instruction yet,
and `count` is the number of lines of the text. -/
def readLines (count : Nat) (waiting : List String) (p : Program) :
    List (Nat × List Char) → Except Error Program
  | [] =>
    match waiting with
    | [] => .ok p
    | label :: _ => .error (.malformedInstruction count (.danglingLabel label))
  | (number, line) :: rest =>
    match Line.ofChars line with
    | .blank => readLines count waiting p rest
    | .label name => readLines count (waiting ++ [name]) p rest
    | .instruction text =>
      match Instruction.parse? text number with
      | .ok i => readLines count [] (p.append waiting [i]) rest
      | .error e => .error e

/-- Reads the written form. -/
def parse? (text : String) : Except Error Program :=
  let lines := Text.lines text.toList
  readLines lines.length [] empty (Text.numbered 1 lines)

/-- The labels at an address, in their order as text. -/
def labelsAt (p : Program) (address : Nat) : List String :=
  (p.entries.filterMap fun (l, a) => if a = address then some l else none).mergeSort

/-- The lines of the written form. -/
def lines (p : Program) : List String :=
  (Text.numbered 0 p.code.toList).flatMap fun (address, i) =>
    (p.labelsAt address).map (· ++ ":") ++ [i.text]

/-- The written form: each line ends in a line feed. -/
def text (p : Program) : String := String.join (p.lines.map (· ++ "\n"))

end Program

end ProofWalk
