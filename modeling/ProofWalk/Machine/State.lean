import ProofWalk.Error
import ProofWalk.Logic.Basic
import ProofWalk.Relation.Row

/-!
# Machine states

A state is a heap of cells, registers that point into it, a stack of callers and a place in the
code. A cell holds a constant or refers to another cell; one that refers to itself is unbound. A
state that waits for a call to be resolved is a node of the proof.

## Main definitions

* `Cell`, `Frame`, `State`
* `State.dereference` — the cell at the end of a chain of references
* `State.constantAt` — the constant that a cell stands for
-/

namespace ProofWalk

/-- A heap cell: a constant, or a reference to a cell. -/
inductive Cell where
  | constant (name : String)
  | ref (target : Nat)
deriving Repr, DecidableEq, Hashable

/-- What a call keeps of its caller: the sizes of heap and registers, and the address to go on
at. -/
structure Frame where
  heapTop : Nat
  registerTop : Nat
  resume : Nat
deriving Repr, DecidableEq, Hashable

/-- A configuration of the machine. The latest caller comes first; `pending` is the predicate of
the call that waits to be resolved. -/
structure State where
  heap : Array Cell := #[]
  registers : Array (Option Nat) := #[]
  calls : List Frame := []
  pc : Nat := 0
  pending : Option String := none
  completed : Bool := false
  failed : Bool := false
deriving Repr, DecidableEq, Hashable

namespace State

/-- The state in which nothing has happened. -/
def initial : State := {}

instance : Inhabited State := ⟨initial⟩

/-- Follows at most `steps` references. -/
def follow (heap : Array Cell) : Nat → Nat → Nat
  | 0, i => i
  | steps + 1, i =>
    match heap[i]? with
    | some (.ref target) => if target = i then i else follow heap steps target
    | _ => i

/-- The cell at the end of the chain of references that begins at a cell: a constant or an unbound
cell. A chain without a cycle is no longer than the heap. -/
def dereference (s : State) (i : Nat) : Nat := follow s.heap (s.heap.size + 1) i

/-- The constant that a cell stands for, if it is bound. -/
def constantAt (s : State) (i : Nat) : Option String :=
  match s.heap[s.dereference i]? with
  | some (.constant c) => some c
  | _ => none

/-- The heap index of an operand that counts from the top of the heap. -/
def heapIndex (s : State) (relative : Int) : Except Error Nat :=
  if relative < 0 ∧ 0 ≤ (s.heap.size : Int) + relative then
    .ok ((s.heap.size : Int) + relative).toNat
  else .error (.badHeapReference relative s.heap.size)

/-- The index of a register operand that counts from the top of the window. -/
def registerIndex (s : State) (register : Int) : Except Error Nat :=
  if register < 0 ∧ 0 ≤ (s.registers.size : Int) + register then
    .ok ((s.registers.size : Int) + register).toNat
  else .error (.badRegister register s.registers.size)

/-- The heap index that a register holds. -/
def register (s : State) (register : Int) : Except Error (Option Nat) :=
  match s.registerIndex register with
  | .ok i => .ok (s.registers[i]?.join)
  | .error e => .error e

/-- The heap index that a register holds; an unset register is an error. -/
def boundRegister (s : State) (register : Int) : Except Error Nat :=
  match s.register register with
  | .ok (some i) => .ok i
  | .ok none => .error (.badRegister register s.registers.size)
  | .error e => .error e

/-- The state with a register set. -/
def setRegister (s : State) (register : Int) (value : Nat) : Except Error State :=
  match s.registerIndex register with
  | .ok i => .ok { s with registers := s.registers.setIfInBounds i (some value) }
  | .error e => .error e

/-- The state with a cell on top of the heap. -/
def push (s : State) (c : Cell) : State := { s with heap := s.heap.push c }

/-- The state with an unbound cell on top of the heap. -/
def pushUnbound (s : State) : State := { s with heap := s.heap.push (.ref s.heap.size) }

/-- The state with a cell overwritten. -/
def setCell (s : State) (i : Nat) (c : Cell) : State :=
  { s with heap := s.heap.setIfInBounds i c }

/-- A state with a number of registers: those past it are dropped, and new ones are unset. -/
def resize (s : State) (count : Nat) : State :=
  { s with
    registers := s.registers.extract 0 count ++ Array.replicate (count - s.registers.size) none }

/-- Whether the state takes no further step by itself. -/
def isStopped (s : State) : Bool := s.completed || s.failed || s.pending.isSome

/-- The arguments of the pending call, which lie on top of the heap. -/
def callArgs (s : State) : CallArgs :=
  let arity := (s.pending.map labelArity).getD 0
  if s.heap.size < arity then []
  else (List.range arity).map fun i => s.constantAt (s.heap.size - arity + i)

/-- A short description: its place, the pending call and its sizes. -/
def text (s : State) : String :=
  let pc := s.pc
  let jump := s.pending.getD "-"
  let heap := s.heap.size
  let registers := s.registers.size
  let calls := s.calls.length
  s!"state(pc={pc}, jump={jump}, heap={heap}, regs={registers}, calls={calls}" ++
    (if s.completed then ", completed" else "") ++ (if s.failed then ", failed" else "") ++ ")"

end State

end ProofWalk
