import ProofWalk.Error
import ProofWalk.Logic.Basic
import ProofWalk.Decimal.Reader
import ProofWalk.Text.Lines

/-!
# Reading goals, queries and rules

One clause or query is one scope: equal names in it are one variable, and each `_` is a variable of
its own. A rule file holds clauses that end at a point with a blank or nothing after it; a line
that starts with `#` or `%` is a comment.

## Main definitions

* `Scope` — the variables met so far
* `Goal.parse?`, `Query.parse?` — reading one goal, and goals separated by commas
* `Rule.parseAll?` — reading a rule file
-/

namespace ProofWalk

open Text (isBlank isAllBlank trim trimStart splitAt joinWith)

/-- The variables of one clause or query by name, and the serial of the next one. -/
structure Scope where
  named : List (String × Variable)
  next : Nat

namespace Scope

/-- A scope without variables. -/
def empty : Scope := { named := [], next := 0 }

/-- A variable that the scope does not hold yet. -/
def fresh (name : String) (s : Scope) : Variable × Scope :=
  ({ name := name, serial := s.next }, { s with next := s.next + 1 })

/-- The variable of a name, a new one at its first occurrence. -/
def resolve (name : String) (s : Scope) : Variable × Scope :=
  match s.named.lookup name with
  | some v => (v, s)
  | none =>
    let (v, s) := s.fresh name
    (v, { s with named := (name, v) :: s.named })

end Scope

/-- Reading with a scope at hand. -/
abbrev Reading := StateT Scope (Except Error)

namespace Scan

/-- The characters that a functor is made of. -/
def isFunctorChar (c : Char) : Bool :=
  !(isBlank c || c == '(' || c == ')' || c == ',' || c == '\x7b' || c == '\x7d' || c == ':' ||
    c == '@')

/-- The functor of a goal and the text between its parentheses, which lies on one line. -/
def goalParts? (s : List Char) : Option (List Char × Option (List Char)) :=
  let s := trimStart s
  let functor := s.takeWhile isFunctorChar
  if functor.isEmpty then none
  else match trim (s.dropWhile isFunctorChar) with
    | [] => some (functor, none)
    | '(' :: r =>
      match r.reverse with
      | ')' :: inner => if inner.contains '\n' then none else some (functor, some inner.reverse)
      | _ => none
    | _ => none

/-- The change of nesting depth at a parenthesis or brace. -/
def nesting (c : Char) : Int :=
  if c = '(' ∨ c = '\x7b' then 1 else if c = ')' ∨ c = '\x7d' then -1 else 0

/-- The pieces of a text between the separators outside parentheses and braces. -/
def splitTop (sep : Char) (depth : Int) : List Char → List (List Char)
  | [] => [[]]
  | c :: r =>
    if c = sep ∧ depth = 0 then [] :: splitTop sep 0 r
    else match splitTop sep (depth + nesting c) r with
      | [] => [[c]]
      | p :: ps => (c :: p) :: ps

/-- The text before and after the first separator outside parentheses. -/
def breakTop (sep : Char) (depth : Int) : List Char → Option (List Char × List Char)
  | [] => none
  | c :: r =>
    if c = sep ∧ depth = 0 then some ([], r)
    else
      let depth := if c = '(' then depth + 1 else if c = ')' then depth - 1 else depth
      (breakTop sep depth r).map fun (before, after) => (c :: before, after)

/-- The text before and after the first occurrence of a character. -/
def breakAt (sep : Char) : List Char → Option (List Char × List Char)
  | [] => none
  | c :: r =>
    if c = sep then some ([], r)
    else (breakAt sep r).map fun (before, after) => (c :: before, after)

/-- The text before and after the first `:-`. -/
def breakArrow : List Char → Option (List Char × List Char)
  | [] => none
  | c :: r =>
    match c, r with
    | ':', '-' :: after => some ([], after)
    | _, _ => (breakArrow r).map fun (before, after) => (c :: before, after)

/-- The pieces of a rule file between the points that end a clause: those outside parentheses and
braces with a blank or nothing after them. -/
def clausePieces (depth : Int) : List Char → List (List Char)
  | [] => [[]]
  | c :: r =>
    let ends := match r with
      | [] => true
      | d :: _ => isBlank d
    if c = '.' ∧ depth = 0 ∧ ends = true then [] :: clausePieces 0 r
    else match clausePieces (depth + nesting c) r with
      | [] => [[c]]
      | p :: ps => (c :: p) :: ps

/-- The clauses of a rule file. -/
def clauses (s : List Char) : List (List Char) :=
  ((clausePieces 0 s).map trim).filter fun c => !c.isEmpty

/-- A rule file without its comment lines. -/
def withoutComments (s : List Char) : List Char :=
  joinWith ['\n'] <| (Text.lines s).filter fun l =>
    match trimStart l with
    | '#' :: _ => false
    | '%' :: _ => false
    | _ => true

/-- The texts between the braces at the end of a clause. Outside a block only blanks and opening
braces may come; `inside` is the text of the open block, last character first. -/
def featureBlocks (inside : Option (List Char)) :
    List Char → Except ClauseFault (List (List Char))
  | [] => if inside.isSome then .error .unterminatedBlock else .ok []
  | c :: r =>
    match inside with
    | some block =>
      if c = '\x7d' then (featureBlocks none r).map (block.reverse :: ·)
      else featureBlocks (some (c :: block)) r
    | none =>
      if c = '\x7b' then featureBlocks (some []) r
      else if isBlank c then featureBlocks none r
      else .error .textAfterBlock

end Scan

open Scan

/-- Reads one argument. -/
def Term.read (text : List Char) : Reading Term := fun scope =>
  let text := trim text
  let name := String.ofList text
  if text = ['_'] then
    let (v, scope) := scope.fresh name
    .ok (.var v, scope)
  else if Term.denotesVariable text then
    let (v, scope) := scope.resolve name
    .ok (.var v, scope)
  else .ok (.constant name, scope)

/-- The arguments between a goal's parentheses. -/
def Goal.readArgs (text : List Char) (inner : List Char) : Reading (List Term) :=
  if isAllBlank inner then pure []
  else (splitAt ',' inner).mapM fun arg => do
    if isAllBlank arg || arg.contains '(' || arg.contains ')' then
      throw (.goalSyntax (String.ofList (trim text)) (.argument (String.ofList (trim arg))))
    Term.read arg

/-- Reads one goal. -/
def Goal.read (text : List Char) : Reading Goal := do
  match goalParts? text with
  | none => throw (.goalSyntax (String.ofList (trim text)) .shape)
  | some (functor, inner) =>
    let args ← match inner with
      | none => pure []
      | some inner => Goal.readArgs text inner
    pure { functor := String.ofList functor, args := args }

/-- Reads goals separated by commas; empty places are skipped. -/
def Goal.readAll (text : List Char) : Reading (List Goal) :=
  ((splitTop ',' 0 text).filter fun g => !isAllBlank g).mapM Goal.read

/-- Reads a single goal such as `predict(howard,Y)`. -/
def Goal.parse? (text : String) : Except Error Goal :=
  (Goal.read text.toList).run' .empty

/-- Reads the goals of a query, which share their variables. -/
def Query.parse? (text : String) : Except Error Query := do
  match ← (Goal.readAll text.toList).run' .empty with
  | [] => throw .emptyQuery
  | head :: body => pure { head := head, body := body }

/-- Reads the weight of a feature. -/
def FeatureWeight.read (clause : List Char) (text : Option (List Char)) : Reading FeatureWeight :=
  match text with
  | none => pure .unit
  | some text => do
    let text := trim text
    if Term.denotesVariable text then
      match ← Term.read text with
      | .var v => pure (.bound v)
      | .constant _ => pure .unit
    else match Decimal.readChars? text with
      | some w => pure (.fixed w)
      | none => throw (.badClause (String.ofList clause) (.weightNotNumber (String.ofList text)))

/-- Reads a feature and the goals it ranges over. -/
def FeatureTemplate.read (clause item findall : List Char) : Reading FeatureTemplate := do
  let (goalText, weightText) := match breakAt '@' item with
    | some (before, after) => (before, some after)
    | none => (item, none)
  let goal ← Goal.read goalText
  let weight ← FeatureWeight.read clause weightText
  let findall ← Goal.readAll findall
  pure { goal := goal, weight := weight, findall := findall }

/-- Reads the features of one block: a single one that ranges over goals after a colon, or several
separated by commas. -/
def FeatureTemplate.readBlock (clause block : List Char) : Reading (List FeatureTemplate) :=
  match breakTop ':' 0 block with
  | some (item, findall) => do
    let f ← FeatureTemplate.read clause item findall
    pure [f]
  | none =>
    ((splitTop ',' 0 block).filter fun i => !isAllBlank i).mapM fun i =>
      FeatureTemplate.read clause i []

/-- Reads one clause. -/
def Rule.read (clause : List Char) : Reading Rule := do
  let (logic, blocks) ← match breakTop '\x7b' 0 clause with
    | none => pure (clause, [])
    | some (logic, rest) =>
      match featureBlocks (some []) rest with
      | .ok blocks => pure (logic, blocks)
      | .error fault => throw (.badClause (String.ofList clause) fault)
  let (head, body) := match breakArrow logic with
    | some (head, body) => (head, body)
    | none => (logic, [])
  let lhs ← Goal.read head
  let rhs ← Goal.readAll body
  let features ← blocks.mapM (FeatureTemplate.readBlock clause)
  pure { lhs := lhs, rhs := rhs, features := features.flatten }

/-- Reads a rule file; every clause has variables of its own. -/
def Rule.parseAll? (source : String) : Except Error (List Rule) :=
  (clauses (withoutComments source.toList)).mapM fun c => (Rule.read c).run' .empty

end ProofWalk
