import ProofWalk.Bytecode.Program
import ProofWalk.Files
import ProofWalk.Logic.Parser
import ProofWalk.Logic.Printer

/-!
# Compiling rules and queries

The code of a clause unifies the head's arguments, reports the features, pushes and calls the body
goals one after the other and returns. The goals that a feature ranges over are compiled into code
of their own behind the clause. The `k`-th distinct variable of a clause with `n` variables lives
in register `k - n`. Program files hold rules in source form or bytecode.

## Main definitions

* `Registers` — where the variables of a clause live
* `Rule.compile` — the code of one clause
* `compileRules` — the program of a rule file
* `Query.compile` — the code of a query
* `Program.loadRules`, `Program.load`, `Program.save` — program files
-/

namespace ProofWalk

-- sums of numbers are those of the core library
attribute [local instance (2000)] Zero.ofOfNat0

/-- The variables of a clause in register order. -/
structure Registers where
  order : List Variable

namespace Registers

/-- The register of a variable, counted from the top of the window. -/
def operand (regs : Registers) (v : Variable) : Int :=
  match regs.order.findIdx? (· == v) with
  | some k => (k : Int) - regs.order.length
  | none => -(regs.order.length : Int)

/-- The variables of a clause in the order of their registers: those of the head, of the features,
of the goals that features range over, of the body, and of the weights. -/
def ofRule (r : Rule) : Registers :=
  let goals := r.lhs :: (r.features.map (·.goal) ++ r.features.flatMap (·.findall) ++ r.rhs)
  let weights := r.features.filterMap fun f => f.weight.var?
  { order := firstOccurrences (goals.flatMap Goal.vars ++ weights) }

end Registers

/-- The code that unifies the head's arguments, and the variables met in them; `argument` is the
heap operand of the first one. -/
def compileHead (regs : Registers) (seen : List Variable) (argument : Int) :
    List Term → List Instruction × List Variable
  | [] => ([], seen)
  | .constant c :: rest =>
    let (code, seen) := compileHead regs seen (argument + 1) rest
    (.unifyConstant c argument :: code, seen)
  | .var v :: rest =>
    if v ∈ seen then
      let (code, seen) := compileHead regs seen (argument + 1) rest
      (.unifyBound (regs.operand v) argument :: code, seen)
    else
      let (code, seen) := compileHead regs (v :: seen) (argument + 1) rest
      (.takeArgument (regs.operand v) argument :: code, seen)

/-- The code that pushes arguments, and the variables met up to then. -/
def compileArgs (regs : Registers) (seen : List Variable) :
    List Term → List Instruction × List Variable
  | [] => ([], seen)
  | .constant c :: rest =>
    let (code, seen) := compileArgs regs seen rest
    (.pushConstant c :: code, seen)
  | .var v :: rest =>
    if v ∈ seen then
      let (code, seen) := compileArgs regs seen rest
      (.pushBound (regs.operand v) :: code, seen)
    else
      let (code, seen) := compileArgs regs (v :: seen) rest
      (.pushFree (regs.operand v) :: code, seen)

/-- The code that calls goals one after the other, and the variables met up to then. -/
def compileGoals (regs : Registers) (seen : List Variable) :
    List Goal → List Instruction × List Variable
  | [] => ([], seen)
  | g :: rest =>
    let (args, seen) := compileArgs regs seen g.args
    let (code, seen) := compileGoals regs seen rest
    (args ++ .call g.label :: code, seen)

/-- The code that adds an argument to a feature; a variable has to be bound at that point. -/
def compileFeatureArg (regs : Registers) (bound : List Variable) :
    Term → Except ClauseFault Instruction
  | .constant c => .ok (.featureConstant c)
  | .var v =>
    if v ∈ bound then .ok (.featureBound (regs.operand v))
    else .error (.unboundFeatureVariable v.name)

/-- The code that weighs a feature. The functor on top of the weight is there because the weight
is read below the top of the heap. -/
def compileWeight (regs : Registers) (bound : List Variable) (functor : String) :
    FeatureWeight → Except ClauseFault (List Instruction)
  | .unit => .ok []
  | .fixed w => .ok [.pushConstant (Decimal.plain w), .pushConstant functor, .featureWeight]
  | .bound v =>
    if v ∈ bound then
      .ok [.pushBound (regs.operand v), .pushConstant functor, .featureWeight]
    else .error (.unboundFeatureVariable v.name)

/-- The code that reports a feature. -/
def compileFeature (regs : Registers) (bound : List Variable) (f : FeatureTemplate) :
    Except ClauseFault (List Instruction) := do
  let args ← f.goal.args.mapM (compileFeatureArg regs bound)
  let weight ← compileWeight regs bound f.goal.functor f.weight
  return .beginFeature f.goal.functor f.goal.arity :: (args ++ weight ++ [.reportFeature])

/-- The code that enumerates the goals of a feature and reports it for a solution. -/
def compileFindall (regs : Registers) (bound : List Variable) (f : FeatureTemplate) :
    Except ClauseFault (List Instruction) := do
  let (goals, bound) := compileGoals regs bound f.findall
  let feature ← compileFeature regs bound f
  return goals ++ .clearFeatures :: (feature ++ [.ret])

/-- The feature of a clause that states none: its predicate and its number among the clauses of
that predicate. -/
def clauseFeature (lhs : Goal) (number : Nat) : List Instruction :=
  [.beginFeature "id" 3, .featureConstant lhs.functor,
    .featureConstant (String.ofList (Decimal.natDigits lhs.arity)),
    .featureConstant (String.ofList (Decimal.natDigits number)), .reportFeature]

/-- Where consecutive pieces of code begin. -/
def startAddresses (start : Nat) : List (List Instruction) → List Nat
  | [] => []
  | code :: rest => start :: startAddresses (start + code.length) rest

/-- The feature code of a clause: the code of a plain feature stands where it is, and one that
ranges over goals takes the next address. -/
def placeFeatures : List (Option (List Instruction)) → List Nat → List Instruction
  | [], _ => []
  | some code :: rest, addresses => code ++ placeFeatures rest addresses
  | none :: rest, address :: addresses => .findall address :: placeFeatures rest addresses
  | none :: rest, [] => placeFeatures rest []

/-- The code of a clause that begins at `start` and is the `number`-th of its predicate. -/
def Rule.compile (r : Rule) (start number : Nat) : Except Error (List Instruction) :=
  let regs := Registers.ofRule r
  let (head, seen) := compileHead regs [] (-(r.lhs.arity : Int)) r.lhs.args
  let compiled : Except ClauseFault (List Instruction) := do
    let plain ← r.features.mapM fun f =>
      if f.findall.isEmpty then some <$> compileFeature regs seen f else pure none
    let ranging ← (r.features.filter fun f => !f.findall.isEmpty).mapM (compileFindall regs seen)
    let opening := .comment r.text :: .allocate regs.order.length :: (head ++ [.clearFeatures])
    let opening := if r.features.isEmpty then opening ++ clauseFeature r.lhs number else opening
    let closing := (compileGoals regs seen r.rhs).1 ++ [.ret]
    let featureLength := (plain.map fun code => (code.map List.length).getD 1).sum
    let behind := start + opening.length + featureLength + closing.length
    let features := placeFeatures plain (startAddresses behind ranging)
    return opening ++ features ++ closing ++ ranging.flatten
  match compiled with
  | .ok code => .ok code
  | .error fault => .error (.badClause r.text fault)

/-- Adds clauses to a program; `labels` are the predicates of the clauses before them. -/
def compileOnto (p : Program) (labels : List String) : List Rule → Except Error Program
  | [] => .ok p
  | r :: rest => do
    let label := r.lhs.label
    let code ← r.compile p.size (labels.count label + 1)
    compileOnto (p.append [label] code) (label :: labels) rest

/-- The program of a rule file. -/
def compileRules (rules : List Rule) : Except Error Program :=
  compileOnto .empty [] rules

/-- The code of a query: its `k`-th variable lives in the `k`-th register from the bottom. -/
def Query.compile (q : Query) : List Instruction :=
  let regs : Registers := { order := q.vars }
  .allocate regs.order.length :: ((compileGoals regs [] q.goals).1 ++ [.ret])

/-! ### Program files -/

namespace Program

/-- The program of rules in source form. -/
def ofRules? (source : String) : Except Error Program := Rule.parseAll? source >>= compileRules

/-- Reads a text from a program file. -/
def readFile {m : Type → Type} [Monad m] [Files m] (path : String)
    (parse? : String → Except Error Program) : ExceptT Error m Program := do
  match ← Files.read? (m := m) path with
  | none => throw (.programFile path)
  | some text => .mk (pure (parse? text))

/-- Compiles a file of rules. -/
def loadRules {m : Type → Type} [Monad m] [Files m] (path : String) : ExceptT Error m Program :=
  readFile path ofRules?

/-- Reads a file of bytecode. -/
def load {m : Type → Type} [Monad m] [Files m] (path : String) : ExceptT Error m Program :=
  readFile path parse?

/-- Writes a file of bytecode. -/
def save {m : Type → Type} [Monad m] [Files m] (p : Program) (path : String) :
    ExceptT Error m Unit := do
  if !(← Files.write (m := m) path p.text) then throw (.programFile path)

end Program

end ProofWalk
