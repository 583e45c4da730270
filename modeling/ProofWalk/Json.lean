import ProofWalk.Decimal.Layout

/-!
# JSON documents

Reports are written as JSON, indented by two blanks for each level. A number keeps a point or an
exponent unless it is a count, and one that is not finite is written as null.

## Main definitions

* `Json` — values
* `Json.pretty` — the indented text of a value
-/

namespace ProofWalk

/-- The values of a document. -/
inductive Json where
  | null
  | count (n : Nat)
  | number (x : Float)
  | text (s : String)
  | array (items : List Json)
  | object (fields : List (String × Json))

namespace Json

/-- A number that may be absent. -/
def optional : Option Float → Json
  | some x => number x
  | none => null

/-- A character of a text: quotes, backslashes and control characters are escaped. -/
def escaped (c : Char) : List Char :=
  match c with
  | '"' => ['\\', '"']
  | '\\' => ['\\', '\\']
  | '\x08' => ['\\', 'b']
  | '\x0c' => ['\\', 'f']
  | '\n' => ['\\', 'n']
  | '\r' => ['\\', 'r']
  | '\t' => ['\\', 't']
  | _ =>
    if c.toNat < 0x20 then
      let digits := Nat.toDigits 16 c.toNat
      ['\\', 'u'] ++ List.replicate (4 - digits.length) '0' ++ digits
    else [c]

/-- A text in quotes. -/
def quoted (s : String) : String := String.ofList ('"' :: s.toList.flatMap escaped ++ ['"'])

/-- A new line at a level of indentation. -/
def newLine (level : Nat) : String := "\n" ++ String.ofList (List.replicate (2 * level) ' ')

/-- Items of a level between an opening and a closing mark, each on a line of its own. -/
def enclosed (left right : String) (level : Nat) (items : List String) : String :=
  if items.isEmpty then left ++ right
  else
    left ++ newLine (level + 1) ++ (("," ++ newLine (level + 1)).intercalate items) ++
      newLine level ++ right

mutual

/-- The indented text of a value at a level. -/
def write (level : Nat) : Json → String
  | null => "null"
  | count n => String.ofList (Decimal.natDigits n)
  | number x => if x.isFinite then Decimal.reported x else "null"
  | text s => quoted s
  | array items => enclosed "[" "]" level (writeItems (level + 1) items)
  | object fields => enclosed "\x7b" "\x7d" level (writeFields (level + 1) fields)

/-- The texts of items. -/
def writeItems (level : Nat) : List Json → List String
  | [] => []
  | item :: rest => write level item :: writeItems level rest

/-- The texts of fields. -/
def writeFields (level : Nat) : List (String × Json) → List String
  | [] => []
  | (name, value) :: rest => (quoted name ++ ": " ++ write level value) :: writeFields level rest

end

/-- The indented text of a value. -/
def pretty (v : Json) : String := v.write 0

end Json

end ProofWalk
