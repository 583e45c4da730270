import ProofWalk.Error
import ProofWalk.Decimal.Layout
import ProofWalk.Text.Lines
import ProofWalk.Text.Numeral

/-!
# Instructions

The instruction set of the machine and its written form: an opcode and its operands, separated by
tabs. A register operand counts from the top of the current register window, so that `-1` is the
last register that the clause allocated. A heap operand counts from the top of the heap, so that
minus the arity is the first argument that the caller pushed.

## Main definitions

* `Instruction` — the instruction set
* `Instruction.text` — the written form
* `Instruction.parse?` — reading a written instruction
-/

namespace ProofWalk

/-- The instruction set. -/
inductive Instruction where
  /-- Does nothing; keeps the text of a clause. -/
  | comment (text : String)
  /-- Opens a window of unset registers. -/
  | allocate (count : Nat)
  /-- Stops at a call of the predicate, to be resolved from outside. -/
  | call (label : String)
  /-- Returns to the caller, or completes the proof. -/
  | ret
  /-- Pushes a constant. -/
  | pushConstant (name : String)
  /-- Pushes an unbound cell and points the register at it. -/
  | pushFree (register : Int)
  /-- Pushes what the register holds. -/
  | pushBound (register : Int)
  /-- Unifies an argument with a constant. -/
  | unifyConstant (name : String) (argument : Int)
  /-- Points the register at an argument. -/
  | takeArgument (register argument : Int)
  /-- Unifies what the register holds with an argument. -/
  | unifyBound (register argument : Int)
  /-- Forgets the features reported so far. -/
  | clearFeatures
  /-- Begins a feature. -/
  | beginFeature (functor : String) (arity : Nat)
  /-- Adds a constant to the feature. -/
  | featureConstant (name : String)
  /-- Adds what the register holds to the feature. -/
  | featureBound (register : Int)
  /-- Weighs the feature by the number below the top of the heap. -/
  | featureWeight
  /-- Reports the feature. -/
  | reportFeature
  /-- Reports the features of every solution of the code at an address. -/
  | findall (address : Nat)
deriving Repr, DecidableEq

namespace Instruction

/-- The opcode of an instruction. -/
def opcode : Instruction → String
  | comment _ => "comment"
  | allocate _ => "allocate"
  | call _ => "callp"
  | ret => "returnp"
  | pushConstant _ => "pushconst"
  | pushFree _ => "pushfreevar"
  | pushBound _ => "pushboundvar"
  | unifyConstant .. => "unifyconst"
  | takeArgument .. => "initfreevar"
  | unifyBound .. => "unifyboundvar"
  | clearFeatures => "fclear"
  | beginFeature .. => "fpushstart"
  | featureConstant _ => "fpushconst"
  | featureBound _ => "fpushboundvar"
  | featureWeight => "fpushweight"
  | reportFeature => "freport"
  | findall _ => "ffindall"

/-- The written operands of an instruction. -/
def operands : Instruction → List String
  | comment text => if text.isEmpty then [] else [text]
  | allocate n | findall n => [natText n]
  | call s | pushConstant s | featureConstant s => [s]
  | pushFree a | pushBound a | featureBound a => [intText a]
  | unifyConstant s a => [s, intText a]
  | takeArgument r a | unifyBound r a => [intText r, intText a]
  | beginFeature s n => [s, natText n]
  | ret | clearFeatures | featureWeight | reportFeature => []
where
  natText (n : Nat) : String := String.ofList (Decimal.natDigits n)
  intText (n : Int) : String := String.ofList (Decimal.intText n)

/-- The written form of an instruction. -/
def text (i : Instruction) : String := "\t".intercalate (i.opcode :: i.operands)

/-- The integer that an operand stands for. -/
def integerOperand (opcode operand : String) : Except InstructionFault Int :=
  match Text.readInteger? (Text.trim operand.toList) with
  | some n => .ok n
  | none => .error (.notInteger opcode operand)

/-- The count that an operand stands for. -/
def countOperand (opcode operand : String) : Except InstructionFault Nat :=
  match Text.readCount? (Text.trim operand.toList) with
  | some n => .ok n
  | none => .error (.notCount opcode operand)

/-- Reads an instruction with one operand; further ones are ignored. -/
def withOne (opcode : String) (operands : List String)
    (read : String → Except InstructionFault Instruction) : Except InstructionFault Instruction :=
  match operands with
  | a :: _ => read a
  | [] => .error (.operands opcode 1 0)

/-- Reads an instruction with two operands; further ones are ignored. -/
def withTwo (opcode : String) (operands : List String)
    (read : String → String → Except InstructionFault Instruction) :
    Except InstructionFault Instruction :=
  match operands with
  | a :: b :: _ => read a b
  | rest => .error (.operands opcode 2 rest.length)

/-- The instruction of an opcode and its operands. -/
def ofFields (opcode : String) (operands : List String) : Except InstructionFault Instruction :=
  let integer := integerOperand opcode
  let count := countOperand opcode
  let one := withOne opcode operands
  let two := withTwo opcode operands
  match opcode with
  | "comment" => .ok (comment ("\t".intercalate operands))
  | "allocate" => one fun n => do return allocate (← count n)
  | "callp" => one fun s => .ok (call s)
  | "returnp" => .ok ret
  | "pushconst" => one fun s => .ok (pushConstant s)
  | "pushfreevar" => one fun a => do return pushFree (← integer a)
  | "pushboundvar" => one fun a => do return pushBound (← integer a)
  | "unifyconst" => two fun s a => do return unifyConstant s (← integer a)
  | "initfreevar" => two fun r a => do return takeArgument (← integer r) (← integer a)
  | "unifyboundvar" => two fun r a => do return unifyBound (← integer r) (← integer a)
  | "fclear" => .ok clearFeatures
  | "fpushstart" => two fun s n => do return beginFeature s (← count n)
  | "fpushconst" => one fun s => .ok (featureConstant s)
  | "fpushboundvar" => one fun a => do return featureBound (← integer a)
  | "fpushweight" => .ok featureWeight
  | "freport" => .ok reportFeature
  | "ffindall" => one fun n => do return findall (← count n)
  | other => .error (.unknownOpcode other)

/-- Reads a written instruction; `line` is its number in an error. -/
def parse? (text : String) (line : Nat) : Except Error Instruction :=
  let parsed := match Text.fields '\t' text with
    | [] => ofFields "" []
    | opcode :: operands => ofFields (Text.trimmed opcode) operands
  match parsed with
  | .ok i => .ok i
  | .error fault => .error (.malformedInstruction line fault)

end Instruction

end ProofWalk
