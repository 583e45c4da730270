import ProofWalk.Text.Lines
import ProofWalk.Text.Numeral

/-!
# Reading arguments

Arguments are options, which start with two hyphens, and positional ones. An option takes one value,
after an equals sign or in the next argument, or none if it is a switch. A value that is an argument
of its own does not start with a hyphen, unless it is a lone one. After two lone hyphens all
arguments are positional. An option is given once, unless it holds a list. Arguments are read from
left to right, and the first that is wrong, or that asks for help or for the version, ends the
reading.

## Main definitions

* `OptionKind`, `Options` — what may be given
* `Reading`, `readArguments` — what has been given
-/

namespace ProofWalk.CommandLine

/-- What an option takes: nothing, any text, a path, paths with a colon between them, or a count.
A path is not empty. -/
inductive OptionKind where
  | switch
  | text
  | path
  | paths
  | count
deriving Repr, DecidableEq

/-- The options that may be given, by name. -/
abbrev Options := List (String × OptionKind)

/-- What ends the reading of arguments. -/
inductive Interruption where
  | help
  | version
  | usage
deriving Repr, DecidableEq

/-- The values that a value stands for, if it is one of a kind. -/
def OptionKind.values? (kind : OptionKind) (value : String) : Option (List String) :=
  match kind with
  | switch => some []
  | text => some [value]
  | path => if value.isEmpty then none else some [value]
  | paths =>
    let parts := Text.fields ':' value
    if parts.any (·.isEmpty) then none else some parts
  | count => if (Text.readCount? value.toList).isSome then some [value] else none

/-- What has been given: the values of each option, and the positional arguments in order. -/
structure Reading where
  options : List (String × List String)
  positional : List String
deriving Repr

namespace Reading

/-- Nothing has been given. -/
def empty : Reading := { options := [], positional := [] }

/-- Takes an option with a value. A list is added to, and nothing else is given twice. -/
def add (r : Reading) (name : String) (kind : OptionKind) (value : String) :
    Except Interruption Reading :=
  match kind.values? value, r.options.lookup name with
  | none, _ => .error .usage
  | some values, none => .ok { r with options := (name, values) :: r.options }
  | some values, some before =>
    if kind == .paths then
      .ok { r with options := (name, before ++ values) :: r.options.filter (·.1 != name) }
    else .error .usage

/-- Whether an option has been given. -/
def has (r : Reading) (name : String) : Bool := r.options.any (·.1 == name)

/-- The value of an option. -/
def value? (r : Reading) (name : String) : Option String :=
  (r.options.lookup name).bind List.head?

/-- The value of an option that has to be given. -/
def required (r : Reading) (name : String) : Except Interruption String :=
  match r.value? name with
  | some value => .ok value
  | none => .error .usage

/-- The values of an option that holds a list. -/
def values (r : Reading) (name : String) : List String := (r.options.lookup name).getD []

/-- The number that an option holds. -/
def count? (r : Reading) (name : String) : Option Nat :=
  (r.value? name).bind fun value => Text.readCount? value.toList

/-- One reading with the options of another, which win. -/
def override (r later : Reading) : Reading :=
  { r with options := later.options ++ r.options.filter fun o => !later.has o.1 }

end Reading

/-- An argument by its form. -/
inductive Argument where
  | separator
  | long (name : String) (value : Option String)
  | short (letters : List Char)
  | plain
deriving Repr

/-- The form of an argument. -/
def Argument.ofString (s : String) : Argument :=
  match s.toList with
  | ['-', '-'] => separator
  | '-' :: '-' :: rest =>
    let name := String.ofList (rest.takeWhile (· != '='))
    match rest.dropWhile (· != '=') with
    | _ :: value => long name (some (String.ofList value))
    | [] => long name none
  | '-' :: c :: rest => short (c :: rest)
  | _ => plain

/-- What a group of short switches asks for; the first of them decides. Only the program as a whole
has a version. -/
def shortRequest (versioned : Bool) : List Char → Interruption
  | 'h' :: _ => .help
  | 'V' :: _ => if versioned then .version else .usage
  | _ => .usage

/-- Takes a positional argument, which is a path; there are at most `room` of them. -/
def Reading.addPositional (r : Reading) (room : Nat) (argument : String) :
    Except Interruption Reading :=
  if argument.isEmpty || room ≤ r.positional.length then .error .usage
  else .ok { r with positional := r.positional ++ [argument] }

/-- Reads arguments up to the first that `stops` admits, if it is neither a value nor behind a
separator, and gives what is left from there on. -/
def readArguments (options : Options) (versioned : Bool) (room : Nat) (stops : String → Bool) :
    Reading → List String → Except Interruption (Reading × List String)
  | r, [] => .ok (r, [])
  | r, argument :: rest =>
    if stops argument then .ok (r, argument :: rest)
    else
      match Argument.ofString argument with
      | .separator =>
        match rest.foldlM (fun r argument => r.addPositional room argument) r with
        | .error e => .error e
        | .ok r => .ok (r, [])
      | .plain =>
        match r.addPositional room argument with
        | .error e => .error e
        | .ok r => readArguments options versioned room stops r rest
      | .short letters => .error (shortRequest versioned letters)
      | .long name value =>
        match options.lookup name, value with
        | some .switch, some _ => .error .usage
        | some .switch, none =>
          match r.add name .switch "" with
          | .error e => .error e
          | .ok r => readArguments options versioned room stops r rest
        | some kind, some value =>
          match r.add name kind value with
          | .error e => .error e
          | .ok r => readArguments options versioned room stops r rest
        | some kind, none =>
          match rest with
          | [] => .error .usage
          | value :: rest =>
            match Argument.ofString value with
            | .plain =>
              match r.add name kind value with
              | .error e => .error e
              | .ok r => readArguments options versioned room stops r rest
            | _ => .error .usage
        | none, none =>
          if name == "help" then .error .help
          else if name == "version" && versioned then .error .version
          else .error .usage
        | none, some _ => .error .usage

end ProofWalk.CommandLine
