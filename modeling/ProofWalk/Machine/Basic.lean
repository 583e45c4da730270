import ProofWalk.Bytecode.Compiler
import ProofWalk.Machine.State
import ProofWalk.Relation.Basic

/-!
# The machine

The machine runs code straight on until it meets a call, a clash or the end of the proof; it never
chooses. A choice is made by whoever expands a waiting state: once for every clause of the pending
predicate, and once for every row that a relation answers.

The code of the query lies behind the code of the program.

## Main definitions

* `Code` — what the machine runs: program, query and relations
* `Live` — the configuration in progress with the features reported so far
* `Exec` — a computation on the live part, which it leaves behind also when it fails
* `Code.expandWith` — the successors of a state
* `Code.findall` — the features of all solutions of a nested search
-/

namespace ProofWalk

/-- What the machine runs. A nested search goes `findallDepth` steps deep, and nested searches may
lie `nestingLimit` deep in each other. -/
structure Code where
  program : Program
  query : Array Instruction
  queryRegisters : Nat
  relations : List Relation
  findallDepth : Nat
  nestingLimit : Nat

/-- A feature under construction. -/
structure FeatureDraft where
  functor : String
  args : List String
  weight : Float

/-- The name of a feature: a functor and its arguments, written like a goal. -/
def FeatureDraft.name (f : FeatureDraft) : String :=
  match f.args with
  | [] => f.functor
  | args => f.functor ++ "(" ++ ",".intercalate args ++ ")"

/-- The configuration in progress, the features reported since the last start, and the features
under construction, the latest first. -/
structure Live where
  state : State
  features : FeatureMap
  drafts : List FeatureDraft

/-- Nothing in progress. -/
def Live.initial : Live := { state := .initial, features := [], drafts := [] }

/-- A computation on the live part of the machine, which it leaves behind also when it fails. -/
abbrev Exec (α : Type) := ExceptT Error (StateM Live) α

/-- A successor of a state: the features that label the step, and those that the machine reported
on the way. -/
structure Branch where
  child : State
  edge : FeatureMap
  reported : FeatureMap

/-- A step from a state to a successor. -/
structure Outlink where
  child : State
  features : FeatureMap

namespace Exec

/-- The configuration in progress. -/
def state : Exec State := fun live => (.ok live.state, live)

/-- Changes the configuration in progress. -/
def update (f : State → State) : Exec Unit :=
  fun live => (.ok (), { live with state := f live.state })

/-- Computes on the configuration in progress. -/
def lift {α : Type} (f : State → Except Error α) : Exec α := fun live => (f live.state, live)

/-- Replaces the configuration in progress by what a computation makes of it. -/
def tryUpdate (f : State → Except Error State) : Exec Unit := fun live =>
  match f live.state with
  | .ok s => (.ok (), { live with state := s })
  | .error e => (.error e, live)

/-- The feature under construction, changed. -/
def draft (opcode : String) (f : FeatureDraft → FeatureDraft) : Exec Unit := fun live =>
  match live.drafts with
  | [] => (.error (.noFeatureInProgress opcode), live)
  | d :: rest => (.ok (), { live with drafts := f d :: rest })

/-- Unifies a cell with a constant; false on a clash. -/
def unifyConstant (i : Nat) (name : String) : Exec Bool := fun live =>
  let d := live.state.dereference i
  match live.state.heap[d]? with
  | some (.constant c) => (.ok (c == name), live)
  | some (.ref _) => (.ok true, { live with state := live.state.setCell d (.constant name) })
  | none => (.error .indexOutOfBounds, live)

/-- Unifies two cells; of two unbound ones the later refers to the earlier. False on a clash. -/
def unifyCells (i j : Nat) : Exec Bool := fun live =>
  let s := live.state
  let a := s.dereference i
  let b := s.dereference j
  match s.heap[a]?, s.heap[b]? with
  | some (.constant x), some (.constant y) => (.ok (x == y), live)
  | some (.constant x), some (.ref _) =>
    (.ok true, { live with state := s.setCell b (.constant x) })
  | some (.ref _), some (.constant y) =>
    (.ok true, { live with state := s.setCell a (.constant y) })
  | some (.ref _), some (.ref _) =>
    if a = b then (.ok true, live)
    else (.ok true, { live with state := s.setCell (max a b) (.ref (min a b)) })
  | _, _ => (.error .indexOutOfBounds, live)

/-- Pushes what a cell stands for: its constant, or a reference to the unbound cell. -/
def pushResolved (i : Nat) : Exec Unit := fun live =>
  let d := live.state.dereference i
  match live.state.heap[d]? with
  | some (.constant c) => (.ok (), { live with state := live.state.push (.constant c) })
  | some (.ref _) => (.ok (), { live with state := live.state.push (.ref d) })
  | none => (.error .indexOutOfBounds, live)

/-- Takes up a state with no features reported. -/
def restore (s : State) : Exec Unit :=
  fun _ => (.ok (), { state := s, features := [], drafts := [] })

/-- Goes to an address with no features reported. -/
def startAt (address : Nat) : Exec Unit := fun live =>
  (.ok (),
    { state := { live.state with pc := address, pending := none }, features := [], drafts := [] })

/-- The features reported so far. -/
def reported : Exec FeatureMap := fun live => (.ok live.features, live)

/-- Weighs the feature under construction by the number below the top of the heap. -/
def weighDraft : Exec Unit := do
  let s ← state
  if s.heap.size < 2 then throw (.badHeapReference (-2) s.heap.size)
  match s.constantAt (s.heap.size - 2) with
  | none => throw (.badWeight "<unbound>")
  | some text =>
    match Decimal.read? text with
    | none => throw (.badWeight text)
    | some w => draft "fpushweight" fun d => { d with weight := w }

/-- Reports the feature under construction. -/
def reportDraft : Exec Unit := fun live =>
  match live.drafts with
  | [] => (.error (.noFeatureInProgress "freport"), live)
  | d :: rest =>
    (.ok (), { live with drafts := rest, features := live.features.insert d.name d.weight })

/-- Stops at a call: the caller goes on behind it. -/
def park (label : String) : Exec Unit :=
  update fun s =>
    { s with
      calls :=
        { heapTop := s.heap.size, registerTop := s.registers.size, resume := s.pc + 1 } :: s.calls
      pending := some label }

/-- Goes back to the caller, or completes the proof if there is none. True if there was one. -/
def return? : Exec Bool := fun live =>
  let s := live.state
  match s.calls with
  | [] => (.ok false, { live with state := { s with completed := true } })
  | f :: rest =>
    (.ok true,
      { live with
        state := { s with
          registers := s.registers.take f.registerTop
          pc := f.resume
          calls := rest } })

/-- What an instruction does before the next one in line; false on a clash. Calls and returns, which
leave the line, do nothing here. -/
def step (findall : Nat → Exec Unit) : Instruction → Exec Bool
  | .comment _ => pure true
  | .allocate n => do
    update fun s => { s with registers := s.registers ++ Array.replicate n none }
    pure true
  | .call _ => pure true
  | .ret => pure true
  | .pushConstant c => do
    update (·.push (.constant c))
    pure true
  | .pushFree a => do
    update State.pushUnbound
    tryUpdate fun s => s.setRegister a (s.heap.size - 1)
    pure true
  | .pushBound a => do
    let i ← lift (·.boundRegister a)
    pushResolved i
    pure true
  | .unifyConstant c rel => do
    let i ← lift (·.heapIndex rel)
    unifyConstant i c
  | .takeArgument a rel => do
    let i ← lift (·.heapIndex rel)
    tryUpdate (·.setRegister a i)
    pure true
  | .unifyBound a rel => do
    let r ← lift (·.boundRegister a)
    let h ← lift (·.heapIndex rel)
    unifyCells r h
  | .clearFeatures => fun live => (.ok true, { live with features := [] })
  | .beginFeature functor _ => fun live =>
    (.ok true, { live with drafts := { functor, args := [], weight := 1 } :: live.drafts })
  | .featureConstant c => do
    draft "fpushconst" fun d => { d with args := d.args ++ [c] }
    pure true
  | .featureBound a => do
    let i ← lift (·.boundRegister a)
    let s ← state
    match s.constantAt i with
    | none => throw (.unboundFeatureVariable a)
    | some c =>
      draft "fpushboundvar" fun d => { d with args := d.args ++ [c] }
      pure true
  | .featureWeight => do
    weighDraft
    pure true
  | .reportFeature => do
    reportDraft
    pure true
  | .findall address => do
    findall address
    pure true

end Exec

namespace Code

open Exec

/-- The number of instructions, those of the query included. -/
def size (code : Code) : Nat := code.program.size + code.query.size

/-- The instruction at an address; the query lies behind the program. -/
def fetch? (code : Code) (pc : Nat) : Option Instruction :=
  if pc < code.program.size then code.program.code[pc]? else code.query[pc - code.program.size]?

theorem lt_size_of_fetch? {code : Code} {pc : Nat} {i : Instruction}
    (h : code.fetch? pc = some i) : pc < code.size := by
  unfold fetch? at h
  unfold size
  split at h
  · omega
  · have := (Array.getElem?_eq_some_iff.1 h).1
    omega

/-- Runs the code from `pc`, which is the place of the live state, to a stop or through a return to
a caller; true in the second case. -/
def runSegment (code : Code) (findall : Nat → Exec Unit) (pc : Nat) : Exec Bool :=
  match h : code.fetch? pc with
  | none => throw (.badAddress pc code.size)
  | some (.call label) => do
    park label
    pure false
  | some .ret => return?
  | some i => do
    if ← step findall i then
      update fun s => { s with pc := pc + 1 }
      runSegment code findall (pc + 1)
    else
      update fun s => { s with failed := true }
      pure false
termination_by code.size - pc
decreasing_by
  have := lt_size_of_fetch? h
  omega

/-- Runs until the state stops, through at most as many returns as there are callers. -/
def runThrough (code : Code) (findall : Nat → Exec Unit) : Nat → Exec Unit
  | 0 => do
    let s ← state
    if !s.isStopped then
      let _ ← code.runSegment findall s.pc
  | callers + 1 => do
    let s ← state
    if !s.isStopped then
      if ← code.runSegment findall s.pc then
        runThrough code findall callers

/-- Runs until the state stops. -/
def run (code : Code) (findall : Nat → Exec Unit) : Exec Unit := do
  let s ← state
  code.runThrough findall s.calls.length

/-- Runs from an address with no features reported, and gives those reported on the way. -/
def runFrom (code : Code) (findall : Nat → Exec Unit) (address : Nat) : Exec FeatureMap := do
  startAt address
  code.run findall
  reported

/-- Unifies consecutive cells with constants; false on a clash. -/
def unifyFrom (cell : Nat) : List String → Exec Bool
  | [] => pure true
  | v :: rest => do
    if ← unifyConstant cell v then unifyFrom (cell + 1) rest else pure false

/-- Resolves the pending call by a tuple: unifies the arguments, returns to the caller and runs on.
False if the state has failed. -/
def resolveWith (code : Code) (findall : Nat → Exec Unit) (values : List String) : Exec Bool := do
  let s ← state
  if s.heap.size < values.length then
    throw (.badHeapReference (-(values.length : Int)) s.heap.size)
  if ← unifyFrom (s.heap.size - values.length) values then
    update fun s => { s with pending := none }
    let _ ← return?
    code.run findall
    let s ← state
    pure !s.failed
  else
    update fun s => { s with failed := true }
    pure false

/-- The successors of a state by the clauses at the given addresses. A clause that reports no
feature gives no step. -/
def expandClauses (code : Code) (findall : Nat → Exec Unit) (s : State) :
    List Nat → Exec (List Branch)
  | [] => pure []
  | address :: rest => do
    restore s
    let features ← code.runFrom findall address
    let child ← state
    let others ← expandClauses code findall s rest
    if child.failed || features.isEmpty then pure others
    else pure ({ child, edge := features, reported := features } :: others)

/-- The successors of a state by the given rows. -/
def expandRows (code : Code) (findall : Nat → Exec Unit) (s : State) :
    List Row → Exec (List Branch)
  | [] => pure []
  | row :: rest => do
    restore s
    let alive ← code.resolveWith findall row.values
    let child ← state
    let reported ← reported
    let others ← expandRows code findall s rest
    pure (if alive then { child, edge := row.features, reported } :: others else others)

/-- The successors of a state by the given relations. -/
def expandRelations (code : Code) (findall : Nat → Exec Unit) (s : State) (label : String) :
    List Relation → Exec (List Branch)
  | [] => pure []
  | r :: rest => do
    if r.claims label then
      restore s
      let rows ← lift fun _ => r.lookup label s.callArgs
      let branches ← code.expandRows findall s rows
      let others ← expandRelations code findall s label rest
      pure (branches ++ others)
    else expandRelations code findall s label rest

/-- The successors of a state: those by clauses in source order, then those by relations. A state
that does not wait for a call has none. -/
def expandWith (code : Code) (findall : Nat → Exec Unit) (s : State) : Exec (List Branch) :=
  if s.completed || s.failed then pure []
  else match s.pending with
    | none => pure []
    | some label => do
      let byClauses ← code.expandClauses findall s (code.program.addresses label)
      let byRelations ← code.expandRelations findall s label code.relations
      pure (byClauses ++ byRelations)

/-- Adds the features reported on the way to every completed state within `depth` steps, searching
depth first. -/
def search (code : Code) (findall : Nat → Exec Unit) :
    Nat → FeatureMap → State → Exec FeatureMap
  | 0, found, _ => pure found
  | depth + 1, found, s => do
    let branches ← code.expandWith findall s
    branches.foldlM (fun found b =>
      if b.child.completed then pure (found.merge b.reported)
      else search code findall depth found b.child) found

/-- The features of all solutions of the code at an address, run without a caller. -/
def collect (code : Code) (findall : Nat → Exec Unit) (address : Nat) : Exec FeatureMap := do
  update fun s => { s with calls := [] }
  let reported ← code.runFrom findall address
  let s ← state
  if s.completed then pure (FeatureMap.merge [] reported)
  else if s.failed then pure []
  else code.search findall code.findallDepth [] s

/-- Adds the features of all solutions of the code at an address to those reported, and leaves
everything else as it was. Nested searches may lie `nesting` deep in each other. -/
def findall (code : Code) (nesting : Nat) (address : Nat) : Exec Unit := fun live =>
  match nesting with
  | 0 => (.error (.nestingTooDeep code.nestingLimit), live)
  | nesting + 1 =>
    match (code.collect (code.findall nesting) address) { live with features := [], drafts := [] } with
    | (.ok found, _) => (.ok (), { live with features := FeatureMap.merge live.features found })
    | (.error e, _) => (.error e, live)

/-- What a search instruction does. -/
def search? (code : Code) : Nat → Exec Unit := code.findall code.nestingLimit

/-- The successors of a state with the features that the machine reported. -/
def expand (code : Code) (s : State) : Exec (List Branch) := code.expandWith code.search? s

/-- The steps from a state. -/
def outlinks (code : Code) (s : State) : Exec (List Outlink) := do
  let branches ← code.expand s
  pure (branches.map fun b => { child := b.child, features := b.edge })

end Code

end ProofWalk
