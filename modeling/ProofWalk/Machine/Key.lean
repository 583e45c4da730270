import ProofWalk.Machine.Basic
import Std.Data.HashMap

/-!
# Keys and answers

Two states are the same node of a proof when they carry the same answer and the same goals still to
prove, up to a renaming of variables. The key of a state lists both, with variables numbered in the
order in which they are met. The goals to prove are read off the pending call and off the code that
each caller goes on with.

## Main definitions

* `Key`, `Code.key` — the canonical form of a state
* `Code.bindings` — what the variables of the query are bound to
* `Code.fill` — the query with its bindings in place
-/

namespace ProofWalk

/-- A part of a key. -/
inductive KeyPart where
  | completed
  | failed
  | constant (name : String)
  | variable (number : Nat)
  | unset
  | goal (label : String)
  | foreignCode (address : Nat)
deriving Repr, DecidableEq, Hashable

/-- The canonical form of a state. -/
structure Key where
  parts : List KeyPart
deriving Repr, DecidableEq, Hashable

/-- The numbers given to unbound cells so far, and the next number. -/
structure Numbering where
  cells : List (Nat × Nat)
  next : Nat

namespace Numbering

/-- No numbers given. -/
def empty : Numbering := { cells := [], next := 0 }

/-- The number of an unbound cell, a new one when it is met first. -/
def ofCell (cell : Nat) (n : Numbering) : Nat × Numbering :=
  match n.cells.lookup cell with
  | some k => (k, n)
  | none => (n.next, { cells := (cell, n.next) :: n.cells, next := n.next + 1 })

/-- A number for a variable that has no cell yet. -/
def fresh (n : Numbering) : Nat × Numbering := (n.next, { n with next := n.next + 1 })

end Numbering

/-- The part of a key that stands for a cell. -/
def State.cellPart (s : State) (cell : Nat) (n : Numbering) : KeyPart × Numbering :=
  match s.constantAt cell with
  | some c => (.constant c, n)
  | none =>
    let (k, n) := n.ofCell (s.dereference cell)
    (.variable k, n)

/-- The part of a key that stands for a register, counted from the bottom. -/
def State.registerPart (s : State) (index : Int) (n : Numbering) : KeyPart × Numbering :=
  let held := if 0 ≤ index then s.registers[index.toNat]?.join else none
  match held with
  | some cell => s.cellPart cell n
  | none => (.unset, n)

/-- The parts that stand for a list, one after the other. -/
def keyParts {α : Type} (part : α → Numbering → KeyPart × Numbering) (n : Numbering) :
    List α → List KeyPart × Numbering
  | [] => ([], n)
  | a :: rest =>
    let (p, n) := part a n
    let (ps, n) := keyParts part n rest
    (p :: ps, n)

namespace Code

/-- The goals that a caller goes on with, read off its code from an address up to its return.
`free` are the numbers of the variables that this code itself introduces, by register. -/
def continuationParts (code : Code) (s : State) (registerTop : Nat) (free : List (Int × Nat))
    (n : Numbering) (pc : Nat) : List KeyPart × Numbering :=
  match h : code.fetch? pc with
  | none => ([.foreignCode pc], n)
  | some .ret => ([], n)
  | some (.comment _) => code.continuationParts s registerTop free n (pc + 1)
  | some (.pushConstant c) =>
    let (ps, n) := code.continuationParts s registerTop free n (pc + 1)
    (.constant c :: ps, n)
  | some (.call label) =>
    let (ps, n) := code.continuationParts s registerTop free n (pc + 1)
    (.goal label :: ps, n)
  | some (.pushFree a) =>
    let (k, n) := n.fresh
    let (ps, n) := code.continuationParts s registerTop ((a, k) :: free) n (pc + 1)
    (.variable k :: ps, n)
  | some (.pushBound a) =>
    let (p, n) := match free.lookup a with
      | some k => (KeyPart.variable k, n)
      | none => s.registerPart ((registerTop : Int) + a) n
    let (ps, n) := code.continuationParts s registerTop free n (pc + 1)
    (p :: ps, n)
  | some _ => ([.foreignCode pc], n)
termination_by code.size - pc
decreasing_by
  all_goals
    have := lt_size_of_fetch? h
    omega

/-- The goals that callers go on with, the latest caller first. -/
def callerParts (code : Code) (s : State) (n : Numbering) : List Frame → List KeyPart
  | [] => []
  | f :: rest =>
    let (ps, n) := code.continuationParts s f.registerTop [] n f.resume
    ps ++ code.callerParts s n rest

/-- The canonical form of a state. -/
def key (code : Code) (s : State) : Key :=
  let flags := (if s.completed then [KeyPart.completed] else []) ++
    (if s.failed then [KeyPart.failed] else [])
  let (answer, n) :=
    keyParts (fun (r : Nat) => s.registerPart r) .empty (List.range code.queryRegisters)
  let (call, n) := match s.pending with
    | none => (([] : List KeyPart), n)
    | some label =>
      let arity := min (labelArity label) s.heap.size
      let (args, n) := keyParts s.cellPart n
        ((List.range arity).map fun i => s.heap.size - arity + i)
      (KeyPart.goal label :: args, n)
  { parts := flags ++ answer ++ call ++ code.callerParts s n s.calls }

/-- What the variables of the query are bound to, in the order in which they occur. -/
def bindings (code : Code) (s : State) : List (Option Term) :=
  (List.range code.queryRegisters).map fun r =>
    s.registers[r]?.join.bind fun cell => (s.constantAt cell).map Term.constant

/-- The query with its bindings in place. -/
def fill (code : Code) (q : Query) (s : State) : Query := q.substitute (code.bindings s)

end Code

end ProofWalk
