import ProofWalk.Decimal.Reader
import ProofWalk.Toml.Basic

/-!
# Reading scalars of a document

Strings, numbers, moments and words. A reader takes the value at the front of a text and gives what
follows it.

## Main definitions

* `readString?` — the four kinds of string
* `readNumber?` — integers and floats
* `readMoment?` — dates and times
* `readScalar?` — any of them, or a word
-/

namespace ProofWalk.Toml

/-- A reader of the front of a text: what it reads and what follows. -/
abbrev Reader (α : Type) := List Char → Option (α × List Char)

/-- A text without a given beginning. -/
def after? (start : List Char) (s : List Char) : Option (List Char) :=
  if start.isPrefixOf s then some (s.drop start.length) else none

/-- A text without the line end at its front. -/
def afterNewline? : List Char → Option (List Char)
  | '\n' :: r => some r
  | '\r' :: '\n' :: r => some r
  | _ => none

/-- A blank within a line. -/
def isSpace (c : Char) : Bool := c == ' ' || c == '\t'

/-- A text without the blanks at its front. -/
def skipSpace (s : List Char) : List Char := s.dropWhile isSpace

/-- A character that may stand in a comment or a string as it is. -/
def isText (c : Char) : Bool := c == '\t' || !isControl c

/-- The value of a hexadecimal digit. -/
def hexValue? (c : Char) : Option Nat :=
  let n := c.toNat
  if '0' ≤ c ∧ c ≤ '9' then some (n - 48)
  else if 'a' ≤ c ∧ c ≤ 'f' then some (n - 87)
  else if 'A' ≤ c ∧ c ≤ 'F' then some (n - 55)
  else none

/-- The character of a given number of hexadecimal digits, and what follows. -/
def readCodePoint? (digits : Nat) (s : List Char) : Option (Char × List Char) :=
  if s.length < digits then none
  else
    match (s.take digits).mapM hexValue? with
    | none => none
    | some values =>
      let n := values.foldl (fun n d => 16 * n + d) 0
      if n.isValidChar then some (Char.ofNat n, s.drop digits) else none

/-- The character of an escape, and what follows. -/
def readEscape? : List Char → Option (Char × List Char)
  | 'b' :: r => some ('\x08', r)
  | 't' :: r => some ('\t', r)
  | 'n' :: r => some ('\n', r)
  | 'f' :: r => some ('\x0c', r)
  | 'r' :: r => some ('\r', r)
  | '"' :: r => some ('"', r)
  | '\\' :: r => some ('\\', r)
  | 'u' :: r => readCodePoint? 4 r
  | 'U' :: r => readCodePoint? 8 r
  | _ => none

/-- The rest of a string with escapes, after its opening quote. -/
def readBasic? : Nat → List Char → Reader (List Char)
  | 0, _, _ => none
  | n + 1, read, s =>
    match s with
    | '"' :: r => some (read.reverse, r)
    | '\\' :: r => (readEscape? r).bind fun (c, r) => readBasic? n (c :: read) r
    | c :: r => if isText c then readBasic? n (c :: read) r else none
    | [] => none

/-- The rest of a literal string, after its opening apostrophe. -/
def readLiteral? : List Char → Reader (List Char)
  | _, [] => none
  | read, c :: r =>
    if c = '\'' then some (read.reverse, r)
    else if isText c then readLiteral? (c :: read) r
    else none

/-- What follows a line break that is escaped: the blanks and line ends up to the next text. -/
def skipFolded : List Char → List Char
  | ' ' :: r => skipFolded r
  | '\t' :: r => skipFolded r
  | '\n' :: r => skipFolded r
  | '\r' :: '\n' :: r => skipFolded r
  | s => s

/-- The rest of a string over several lines, which ends at three quotes; up to two more quotes
belong to it. -/
def readMultiline? (quote : Char) (escapes : Bool) : Nat → List Char → Reader (List Char)
  | 0, _, _ => none
  | n + 1, read, s =>
    let quotes := (s.takeWhile (· == quote)).length
    if 3 ≤ quotes then
      if quotes ≤ 5 then
        some (read.reverse ++ List.replicate (quotes - 3) quote, s.drop quotes)
      else none
    else
      match s with
      | [] => none
      | c :: r =>
        if escapes && c == '\\' then
          match afterNewline? (skipSpace r) with
          | some r => readMultiline? quote escapes n read (skipFolded r)
          | none => (readEscape? r).bind fun (c, r) => readMultiline? quote escapes n (c :: read) r
        else
          match afterNewline? s with
          | some r => readMultiline? quote escapes n ('\n' :: read) r
          | none => if isText c then readMultiline? quote escapes n (c :: read) r else none

/-- A string over several lines, after its three quotes; a line end at its front is no part of it.
-/
def readFolded? (quote : Char) (escapes : Bool) (s : List Char) : Option (List Char × List Char) :=
  readMultiline? quote escapes (s.length + 1) [] ((afterNewline? s).getD s)

/-- A string of one line. -/
def readShort? (s : List Char) : Option (List Char × List Char) :=
  match s with
  | '"' :: r => readBasic? (r.length + 1) [] r
  | '\'' :: r => readLiteral? [] r
  | _ => none

/-- A string. -/
def readString? (s : List Char) : Option (List Char × List Char) :=
  match s with
  | '"' :: '"' :: '"' :: r => readFolded? '"' true r
  | '\'' :: '\'' :: '\'' :: r => readFolded? '\'' false r
  | _ => readShort? s

/-- Digits of a base in groups that single underscores separate. -/
def digitGroups? (value? : Char → Option Nat) (s : List Char) : Option (List Nat) :=
  let groups := s.splitOn '_'
  if groups.any (·.isEmpty) then none else groups.flatten.mapM value?

/-- The digits of a base below sixteen. -/
def digitBelow? (base : Nat) (c : Char) : Option Nat := (hexValue? c).filter (· < base)

/-- A run of digits as a number. -/
def ofDigits (base : Nat) (digits : List Nat) : Nat := digits.foldl (fun n d => base * n + d) 0

/-- A decimal number without sign; only zero itself begins with a zero. -/
def readDecimal? (s : List Char) : Option Nat :=
  match digitGroups? (digitBelow? 10) s with
  | some (0 :: _ :: _) => none
  | some digits => some (ofDigits 10 digits)
  | none => none

/-- An integer, which must be a signed word. -/
def integer? (s : List Char) : Option Int :=
  let n : Option Int :=
    match s with
    | '0' :: 'x' :: r => (digitGroups? hexValue? r).map fun d => (ofDigits 16 d : Int)
    | '0' :: 'o' :: r => (digitGroups? (digitBelow? 8) r).map fun d => (ofDigits 8 d : Int)
    | '0' :: 'b' :: r => (digitGroups? (digitBelow? 2) r).map fun d => (ofDigits 2 d : Int)
    | '-' :: r => (readDecimal? r).map fun n => -(n : Int)
    | '+' :: r => (readDecimal? r).map fun n => (n : Int)
    | _ => (readDecimal? s).map fun n => (n : Int)
  n.filter fun n => decide (n < (integerLimit : Int) ∧ -(integerLimit : Int) ≤ n)

/-- The exponent of a float: an optional sign and digits. -/
def isExponent (s : List Char) : Bool :=
  let digits := match s with
    | '-' :: r => r
    | '+' :: r => r
    | _ => s
  (digitGroups? (digitBelow? 10) digits).isSome

/-- A float without its sign: a whole part, and places or an exponent or both. -/
def isMagnitude (s : List Char) : Bool :=
  let mark := fun c => c == 'e' || c == 'E'
  let mantissa := s.takeWhile fun c => !mark c
  let whole := mantissa.takeWhile (· != '.')
  let places := mantissa.dropWhile (· != '.')
  let exponent := s.dropWhile fun c => !mark c
  (readDecimal? whole).isSome &&
    (places.isEmpty || (digitGroups? (digitBelow? 10) (places.drop 1)).isSome) &&
    (exponent.isEmpty || isExponent (exponent.drop 1)) && !(places.isEmpty && exponent.isEmpty)

/-- A float; one too large for a double is none. -/
def float? (s : List Char) : Option Float :=
  let magnitude := match s with
    | '-' :: r => r
    | '+' :: r => r
    | _ => s
  if magnitude = "inf".toList ∨ magnitude = "nan".toList then Decimal.readChars? s
  else if isMagnitude magnitude then
    (Decimal.readChars? (s.filter (· != '_'))).filter fun x => !(x.isInf && 0 < x)
  else none

/-- The number of days of a month. -/
def daysIn (year month : Nat) : Nat :=
  if month = 2 then
    if year % 4 = 0 ∧ (year % 100 ≠ 0 ∨ year % 400 = 0) then 29 else 28
  else if month = 4 ∨ month = 6 ∨ month = 9 ∨ month = 11 then 30 else 31

/-- A number of a given count of digits between bounds, and what follows. -/
def readField? (count low high : Nat) (s : List Char) : Option (Nat × List Char) :=
  if s.length < count then none
  else
    match (s.take count).mapM (digitBelow? 10) with
    | none => none
    | some digits =>
      let n := ofDigits 10 digits
      if low ≤ n ∧ n ≤ high then some (n, s.drop count) else none

/-- What follows a date. -/
def afterDate? (s : List Char) : Option (List Char) := do
  let (year, s) ← readField? 4 0 9999 s
  let s ← after? ['-'] s
  let (month, s) ← readField? 2 1 12 s
  let s ← after? ['-'] s
  let (_, s) ← readField? 2 1 (daysIn year month) s
  return s

/-- What follows a time of day. -/
def afterTime? (s : List Char) : Option (List Char) := do
  let (_, s) ← readField? 2 0 23 s
  let s ← after? [':'] s
  let (_, s) ← readField? 2 0 59 s
  let s ← after? [':'] s
  let (_, s) ← readField? 2 0 60 s
  match s with
  | '.' :: r => if (r.takeWhile Char.isDigit).isEmpty then none else some (r.dropWhile Char.isDigit)
  | _ => some s

/-- What follows an offset from universal time, if there is one. -/
def afterOffset? (s : List Char) : Option (List Char) :=
  match s with
  | 'Z' :: r => some r
  | 'z' :: r => some r
  | c :: r =>
    if c = '+' ∨ c = '-' then do
      let (_, r) ← readField? 2 0 23 r
      let r ← after? [':'] r
      let (_, r) ← readField? 2 0 59 r
      return r
    else some s
  | [] => some []

/-- What follows a moment: a date, a time, or a date and a time with an optional offset. -/
def readMoment? (s : List Char) : Option (List Char) :=
  match afterDate? s with
  | none => afterTime? s
  | some r =>
    match r with
    | c :: t =>
      if c = 'T' ∨ c = 't' ∨ c = ' ' then
        match afterTime? t with
        | some r => afterOffset? r
        | none => if c = ' ' then some r else none
      else some r
    | [] => some []

/-- A character that may stand in a number or a word. -/
def isWordChar (c : Char) : Bool :=
  c.isAlphanum || c == '_' || c == '+' || c == '-' || c == '.'

/-- A number, or one of the words that are values. -/
def readWord? (s : List Char) : Option (Value × List Char) :=
  let word := s.takeWhile isWordChar
  let rest := s.dropWhile isWordChar
  if word = "true".toList then some (.boolean true, rest)
  else if word = "false".toList then some (.boolean false, rest)
  else
    match integer? word with
    | some n => some (.integer n, rest)
    | none => (float? word).map fun x => (.float x, rest)

/-- A value that is neither array nor table. -/
def readScalar? (s : List Char) : Option (Value × List Char) :=
  match s with
  | '"' :: _ => (readString? s).map fun (t, r) => (.text (String.ofList t), r)
  | '\'' :: _ => (readString? s).map fun (t, r) => (.text (String.ofList t), r)
  | _ =>
    match readMoment? s with
    | some r => some (.moment, r)
    | none => readWord? s

end ProofWalk.Toml
