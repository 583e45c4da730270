/-!
# Errors

What can go wrong, by cause. A fault says why a piece of input was refused; an error adds where it
stood. Each error has a stable code, its area and its kind, and a message.

## Main definitions

* `Error` — the causes
* `Error.code` — the area and kind of an error
* `Error.message` — its wording
-/

namespace ProofWalk

/-- Why a text is no goal. -/
inductive GoalFault where
  | shape
  | argument (text : String)
deriving Repr, DecidableEq

/-- Why a clause is refused. -/
inductive ClauseFault where
  | unterminatedBlock
  | textAfterBlock
  | weightNotNumber (text : String)
  | unboundFeatureVariable (name : String)
deriving Repr, DecidableEq

/-- Why a line of bytecode is refused. -/
inductive InstructionFault where
  | operands (opcode : String) (expected found : Nat)
  | notInteger (opcode operand : String)
  | notCount (opcode operand : String)
  | unknownOpcode (opcode : String)
  | danglingLabel (label : String)
deriving Repr, DecidableEq

/-- Why a line of a fact or edge table is refused. -/
inductive RowFault where
  | noWeightColumn
  | weightNotNumber (text : String)
  | fieldCount (found : Nat)
deriving Repr, DecidableEq

/-- Why a line is no labelled example. -/
inductive ExampleFault where
  | missingQuery
  | unsignedLabel (text : String)
deriving Repr, DecidableEq

/-- A number in the head of a grounded graph. -/
inductive HeaderCount where
  | nodes
  | edges
  | dependencies
deriving Repr, DecidableEq

/-- Why a grounded line is refused. -/
inductive GroundedFault where
  | fieldCount (found : Nat)
  | missingCount (which : HeaderCount)
  | notCount (which : HeaderCount) (text : String)
  | notInlineFeature (number : Nat)
  | namelessFeature (number : Nat)
  | edgeWithoutArrow (edge : String)
  | edgeWithoutLabels (edge : String)
  | badSource (edge : String)
  | badTarget (edge : String)
  | nodeOutside (edge : String) (nodes : Nat)
  | badLabelWeight (label : String)
  | badFeatureNumber (text : String)
  | edgeCount (declared found : Nat)
  | badLabelNode (text : String)
deriving Repr, DecidableEq

/-- Why a line of a parameter file is refused. -/
inductive ParameterFault where
  | shape
  | weightNotNumber (text : String)
deriving Repr, DecidableEq

/-- A part of a run that is chosen by name. -/
inductive Component where
  | prover
  | squash
  | regularizer
  | schedule
  | loss
  | learner
deriving Repr, DecidableEq

/-- Why an option is refused. -/
inductive OptionFault where
  | unknownWalkOption
  | unknownLearningOption
  | outsideUnit
  | outsideHalfOpenUnit
  | notPositive
  | shape
  | notNumber (text : String)
  | other (reason : String)
deriving Repr, DecidableEq

/-- What can go wrong. -/
inductive Error where
  | goalSyntax (text : String) (fault : GoalFault)
  | emptyQuery
  | malformedInstruction (line : Nat) (fault : InstructionFault)
  | badClause (clause : String) (fault : ClauseFault)
  | malformedRow (table : String) (line : Nat) (fault : RowFault)
  | unsupportedFile (path : String)
  | multiplePrograms (first second : String)
  | programFile (path : String)
  | badAddress (pc size : Nat)
  | badRegister (register : Int) (window : Nat)
  | badHeapReference (relative : Int) (size : Nat)
  | unboundFeatureVariable (register : Int)
  | badWeight (value : String)
  | noFeatureInProgress (opcode : String)
  | nestingTooDeep (limit : Nat)
  | reentrant (prover : String)
  | wrongGraphKind (prover expected : String)
  | unknownState
  | walkUnfinished
  | unboundLabel (label argument : String)
  | malformedExample (line : Nat) (fault : ExampleFault)
  | groundFile (path : String)
  | malformedGrounded (fault : GroundedFault)
  | nonFiniteParameter (feature value : String) (line : Nat)
  | malformedParameter (line : Nat) (fault : ParameterFault)
  | degenerateNode (node : Nat)
  | featuresExhausted
  | learnFile (path : String)
  | unknownComponent (kind : Component) (name : String)
  | invalidOption (option : String) (fault : OptionFault)
  | configFile (path : String)
  | configSyntax (path : String)
  | indexOutOfBounds
deriving Repr, DecidableEq

/-- The wording of a goal's fault. -/
def GoalFault.message : GoalFault → String
  | shape => "expected functor(arg,...)"
  | argument text => s!"bad argument \"{text}\""

/-- The wording of a clause's fault. -/
def ClauseFault.message : ClauseFault → String
  | unterminatedBlock => "unterminated feature block"
  | textAfterBlock => "text after feature block"
  | weightNotNumber text => s!"weight \"{text}\" is not a number"
  | unboundFeatureVariable name =>
    s!"feature variable {name} is not bound when the feature is computed"

/-- The wording of an instruction's fault. -/
def InstructionFault.message : InstructionFault → String
  | operands opcode expected found => s!"{opcode} expects {expected} operand(s), got {found}"
  | notInteger opcode operand => s!"{opcode}: \"{operand}\" is not an integer"
  | notCount opcode operand => s!"{opcode}: \"{operand}\" is not a count"
  | unknownOpcode opcode => s!"unknown opcode \"{opcode}\""
  | danglingLabel label => s!"label {label}: has no instruction after it"

/-- The wording of a row's fault. -/
def RowFault.message : RowFault → String
  | noWeightColumn => "weighted fact without a weight column"
  | weightNotNumber text => s!"weight \"{text}\" is not a number"
  | fieldCount found => s!"expected 3 or 4 fields, found {found}"

/-- The wording of an example's fault. -/
def ExampleFault.message : ExampleFault → String
  | missingQuery => "missing query"
  | unsignedLabel text => s!"label \"{text}\" must start with + or -"

/-- What a number in the head of a grounded graph counts. -/
def HeaderCount.text : HeaderCount → String
  | nodes => "node count"
  | edges => "edge count"
  | dependencies => "label dependency count"

/-- The wording of a grounded line's fault. -/
def GroundedFault.message : GroundedFault → String
  | fieldCount found => s!"expected at least 6 tab-separated fields, found {found}"
  | missingCount which => "missing " ++ which.text
  | notCount which text => which.text ++ s!" \"{text}\" is not a count"
  | notInlineFeature number => s!"feature {number} is not in the inline feature list"
  | namelessFeature number => s!"feature {number} has no name; is the .features file missing?"
  | edgeWithoutArrow edge => s!"edge \"{edge}\" has no ->"
  | edgeWithoutLabels edge => s!"edge \"{edge}\" has no labels"
  | badSource edge => s!"bad source in \"{edge}\""
  | badTarget edge => s!"bad target in \"{edge}\""
  | nodeOutside edge nodes => s!"edge \"{edge}\" names a node outside 1..={nodes}"
  | badLabelWeight label => s!"bad label weight in \"{label}\""
  | badFeatureNumber text => s!"bad feature id \"{text}\""
  | edgeCount declared found => s!"header declares {declared} edges but {found} were listed"
  | badLabelNode text => s!"label node \"{text}\" is not a node of the graph"

/-- The wording of a parameter line's fault. -/
def ParameterFault.message : ParameterFault → String
  | shape => "expected feature<TAB>weight"
  | weightNotNumber text => s!"weight \"{text}\" is not a number"

/-- What a component is called. -/
def Component.text : Component → String
  | prover => "prover"
  | squash => "squashing function"
  | regularizer => "regularizer"
  | schedule => "regularization schedule"
  | loss => "loss function"
  | learner => "learner"

/-- The names that a component may be chosen by. -/
def Component.names : Component → List String
  | prover => ["dfs", "ppr", "dpr", "idppr", "iddpr", "qpr"]
  | squash => ["clipExp", "exp", "linear", "relu", "sigmoid", "tanh"]
  | regularizer => ["none", "l1", "l2", "l1laplacian", "l1grouplasso"]
  | schedule => ["sync", "lazy"]
  | loss => ["posneg", "normalized"]
  | learner => ["srw", "dpr"]

/-- The wording of an option's fault. -/
def OptionFault.message : OptionFault → String
  | unknownWalkOption => "unknown apr option"
  | unknownLearningOption => "unknown srw option"
  | outsideUnit => "must lie in [0, 1]"
  | outsideHalfOpenUnit => "must lie in [0, 1)"
  | notPositive => "must be positive"
  | shape => "expected name=value"
  | notNumber text => s!"\"{text}\" is not a valid number"
  | other reason => reason

namespace Error

/-- The area and kind of an error. -/
def code : Error → String
  | goalSyntax .. => "logic::goal_syntax"
  | emptyQuery => "logic::empty_query"
  | malformedInstruction .. => "program::malformed_instruction"
  | badClause .. => "program::compile"
  | malformedRow .. => "program::malformed_fact"
  | unsupportedFile _ => "program::unsupported_file"
  | multiplePrograms .. => "program::multiple_programs"
  | programFile _ => "program::io"
  | badAddress .. => "interp::bad_address"
  | badRegister .. => "interp::bad_register"
  | badHeapReference .. => "interp::bad_heap_ref"
  | unboundFeatureVariable _ => "interp::unbound_feature"
  | badWeight _ => "interp::bad_weight"
  | noFeatureInProgress _ => "interp::no_feature"
  | nestingTooDeep _ => "interp::nesting"
  | reentrant _ => "prove::reentrant"
  | wrongGraphKind .. => "prove::wrong_graph"
  | unknownState => "prove::unknown_state"
  | walkUnfinished => "prove::unfinished"
  | unboundLabel .. => "ground::unbound_label"
  | malformedExample .. => "ground::malformed_example"
  | groundFile _ => "ground::io"
  | malformedGrounded _ => "learn::malformed_grounded"
  | nonFiniteParameter .. => "learn::non_finite_param"
  | malformedParameter .. => "learn::malformed_param"
  | degenerateNode _ => "learn::degenerate_node"
  | featuresExhausted => "learn::features_exhausted"
  | learnFile _ => "learn::io"
  | unknownComponent .. => "config::unknown_component"
  | invalidOption .. => "config::invalid_option"
  | configFile _ => "config::read"
  | configSyntax _ => "config::parse"
  | indexOutOfBounds => "panic"

/-- The wording of an error. -/
def message : Error → String
  | goalSyntax text fault => s!"cannot parse goal \"{text}\": {fault.message}"
  | emptyQuery => "empty query"
  | malformedInstruction line fault => s!"malformed instruction on line {line}: {fault.message}"
  | badClause clause fault => s!"cannot compile clause {clause}: {fault.message}"
  | malformedRow table line fault => s!"malformed line {line} in {table}: {fault.message}"
  | unsupportedFile path => s!"unsupported program file: {path}"
  | multiplePrograms first second => s!"more than one rule program given ({first} and {second})"
  | programFile path => s!"I/O error on {path}"
  | badAddress pc size => s!"program counter {pc} is outside the program ({size} instructions)"
  | badRegister register window =>
    s!"register {register} is outside the current register window of size {window}"
  | badHeapReference relative size =>
    s!"heap reference {relative} is outside the heap of size {size}"
  | unboundFeatureVariable register => s!"feature argument in register {register} is unbound"
  | badWeight value => s!"weight \"{value}\" is not a number"
  | noFeatureInProgress opcode => s!"{opcode} outside of a feature computation"
  | nestingTooDeep limit => s!"features that range over goals are nested more than {limit} deep"
  | reentrant prover => s!"{prover} is already proving: one prover instance per thread only"
  | wrongGraphKind prover expected => s!"{prover} needs a {expected} proof graph"
  | unknownState => "state is not a node of this proof graph"
  | walkUnfinished => "the walk did not finish"
  | unboundLabel label argument => s!"label query {label} has an unbound argument {argument}"
  | malformedExample line fault => s!"malformed example line {line}: {fault.message}"
  | groundFile path => s!"I/O error on {path}"
  | malformedGrounded fault => s!"malformed grounded example: {fault.message}"
  | nonFiniteParameter feature value line =>
    s!"parameter {feature} has non-finite weight {value} on line {line}"
  | malformedParameter line fault => s!"malformed parameter line {line}: {fault.message}"
  | degenerateNode node =>
    s!"total outlink weight is zero at node {node} but an edge still carries weight"
  | featuresExhausted => "feature id space exhausted"
  | learnFile path => s!"I/O error on {path}"
  | unknownComponent kind name =>
    let expected := ", ".intercalate kind.names
    s!"unknown {kind.text} \"{name}\"; expected one of: {expected}"
  | invalidOption option fault => s!"invalid option {option}: {fault.message}"
  | configFile path => s!"failed to read config {path}"
  | configSyntax path => s!"failed to parse config {path}"
  | indexOutOfBounds => "an argument or cell that does not exist was read"

end Error

end ProofWalk
