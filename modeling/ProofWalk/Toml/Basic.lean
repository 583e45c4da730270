import ProofWalk.Decimal.Layout

/-!
# Configuration documents

The values of a TOML document, and how a document is written. A moment is a date or a time; the program
has no use for one, so it is known only as a moment.

A document is written with its plain entries first, then its sections with a blank line before each.
Arrays of two or more items have a line for each. A string is written in the first of four forms
that holds it as it is, and with escapes if there is none.

## Main definitions

* `Value`, `Entries` — the values
* `StringForm`, `writeString` — the forms of strings
* `writeFloat`, `Value.write?`
* `writeDocument?` — entries and sections
-/

namespace ProofWalk.Toml

/-- A value. -/
inductive Value where
  | text (s : String)
  | integer (n : Int)
  | float (x : Float)
  | boolean (b : Bool)
  | moment
  | array (items : List Value)
  | table (entries : List (String × Value))

/-- The entries of a table, each name once. -/
abbrev Entries := List (String × Value)

/-! ### Writing -/

-- powers of numbers are those of the core library
attribute [local instance (2000)] instPowNat

/-- The four hexadecimal digits of a character below `2 ^ 16`. -/
def hexDigits (n : Nat) : List Char :=
  let digits := (Nat.toDigits 16 n).map Char.toUpper
  List.replicate (4 - digits.length) '0' ++ digits

/-- A character below the blank, or the delete character. -/
def isControl (c : Char) : Bool := c.toNat < 0x20 || c.toNat == 0x7f

/-- The length of the longest run of a character. -/
def longestRun (mark : Char) (s : List Char) : Nat :=
  (s.foldl (fun (longest, run) c =>
    if c = mark then (max longest (run + 1), run + 1) else (longest, 0)) (0, 0)).1

/-- How a string is written: with escapes or literally, between single marks or triple ones, which
leave line feeds and shorter runs of the mark as they are. -/
inductive StringForm where
  | basic
  | literal
  | longBasic
  | longLiteral
deriving Repr, DecidableEq

namespace StringForm

/-- The form of a string: the first of the basic, the literal, the long basic and the long literal
form that holds it as it is. If none does it is written with escapes, in the long form if it has a
line feed. Tabs are no obstacle to a form. -/
def ofChars (s : List Char) : StringForm :=
  let controls := s.any fun c => isControl c && c != '\t' && c != '\n'
  let backslashes := s.contains '\\'
  let lines := s.contains '\n'
  let quotes := longestRun '"' s
  let apostrophes := longestRun '\'' s
  if !controls && !lines && !backslashes && quotes == 0 then basic
  else if !controls && !lines && apostrophes == 0 then literal
  else if !controls && !backslashes && quotes < 3 then longBasic
  else if !controls && apostrophes < 3 then longLiteral
  else if lines then longBasic
  else basic

/-- The marks around a string. -/
def mark : StringForm → List Char
  | basic => ['"']
  | literal => ['\'']
  | longBasic => ['"', '"', '"']
  | longLiteral => ['\'', '\'', '\'']

/-- Whether the marks are triple. -/
def isLong : StringForm → Bool
  | basic | literal => false
  | longBasic | longLiteral => true

/-- Whether the string is written without escapes. -/
def isLiteral : StringForm → Bool
  | basic | longBasic => false
  | literal | longLiteral => true

end StringForm

/-- A character of a string with escapes that is no quote; long strings keep their line feeds. -/
def escapeChar (long : Bool) (c : Char) : List Char :=
  match c with
  | '\x08' => ['\\', 'b']
  | '\t' => ['\\', 't']
  | '\n' => if long then ['\n'] else ['\\', 'n']
  | '\x0c' => ['\\', 'f']
  | '\r' => ['\\', 'r']
  | '\\' => ['\\', '\\']
  | _ => if isControl c then '\\' :: 'u' :: hexDigits c.toNat else [c]

/-- A string with escapes, behind a run of quotes. A long string keeps two quotes in a row and
escapes the third; another string escapes them all. -/
def escapeFrom (long : Bool) : Nat → List Char → List Char
  | _, [] => []
  | run, '"' :: r =>
    if long && run < 2 then '"' :: escapeFrom long (run + 1) r
    else '\\' :: '"' :: escapeFrom long 0 r
  | _, c :: r => escapeChar long c ++ escapeFrom long 0 r

/-- The written form of a string. One with a line feed begins on a line of its own. -/
def writeString (s : List Char) : List Char :=
  let form := StringForm.ofChars s
  let start := if form.isLong && s.contains '\n' then ['\n'] else []
  let body := if form.isLiteral then s else escapeFrom form.isLong 0 s
  form.mark ++ start ++ body ++ form.mark

/-- The written form of a float: whole numbers keep one place. -/
def writeFloat (x : Float) : List Char :=
  if x.isNaN then "nan".toList
  else
    let text := Decimal.plainChars x
    if x.isInf || text.contains '.' then text else text ++ ['.', '0']

/-- Integers of a document are signed words. -/
def integerLimit : Nat := 2 ^ (63 : Nat)

/-- The written form of a value that is no table; an integer out of range has none. -/
def Value.write? : Value → Option (List Char)
  | .text s => some (writeString s.toList)
  | .integer n =>
    if n < (integerLimit : Int) ∧ -(integerLimit : Int) ≤ n then some (Decimal.intText n) else none
  | .float x => some (writeFloat x)
  | .boolean b => some (if b then "true".toList else "false".toList)
  | .moment => none
  | .array items =>
    match items.mapM Value.write? with
    | none => none
    | some [] => some ['[', ']']
    | some [item] => some ('[' :: item ++ [']'])
    | some items =>
      some ('[' :: items.flatMap (fun item => "\n    ".toList ++ item ++ [',']) ++ ['\n', ']'])
  | .table _ => none

/-- The line of an entry. -/
def writeEntry? (entry : String × Value) : Option (List Char) :=
  entry.2.write?.map fun v => entry.1.toList ++ " = ".toList ++ v ++ ['\n']

/-- The lines of entries. -/
def writeEntries? (entries : Entries) : Option (List Char) :=
  (entries.mapM writeEntry?).map List.flatten

/-- The written form of entries and named sections. -/
def writeDocument? (entries : Entries) (sections : List (String × Entries)) : Option String := do
  let head ← writeEntries? entries
  let parts ← sections.mapM fun (name, entries) =>
    (writeEntries? entries).map fun body => "\n[".toList ++ name.toList ++ "]\n".toList ++ body
  return String.ofList (head ++ parts.flatten)

end ProofWalk.Toml
