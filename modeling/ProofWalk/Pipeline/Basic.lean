import ProofWalk.Files
import ProofWalk.Pipeline.Delivery
import ProofWalk.Text.Lines

/-!
# Pipelines

A pipeline runs independent tasks, one for each input, and hands their outputs to a sink. A task
that fails is counted and passed over. Only an error that stops the program ends the run: the tasks
after it are still run, its own result never arrives, and the error is raised at the end.

The tasks are run one after another in the order of the inputs. Which of several workers runs a task
makes no difference to its result.

## Main definitions

* `Pipeline` — its settings
* `Pipeline.run` — all tasks of a list of inputs
* `Workers` — one instance of something for each worker
-/

namespace ProofWalk

/-- The number of workers, the greatest number of tasks in flight, which is not less, and whether
outputs keep the order of the inputs. -/
structure Pipeline where
  threads : Nat
  throttle : Nat
  keepOrder : Bool
deriving Repr, DecidableEq

/-- An error that no caller handles: it stops the program. -/
def Error.stops : Error → Bool
  | .indexOutOfBounds => true
  | _ => false

namespace Pipeline

/-- A pipeline with at least one worker. -/
def new (threads throttle : Nat) (keepOrder : Bool) : Pipeline :=
  let threads := max threads 1
  { threads, throttle := max throttle threads, keepOrder }

/-- The work on one input: it is told the number of its task, and it may change what all tasks
share. -/
abbrev Work (n : Type → Type) (T O ω : Type) := Nat → T → ω → n (Except Error (Option O) × ω)

variable {n : Type → Type} [Monad n] {T O ω σ : Type}

/-- The result that a task hands back, or the error that stops the program. -/
def outcome : Except Error (Option O) → Except Error (Outcome O)
  | .ok (some o) => .ok (.output o)
  | .ok none => .ok .skipped
  | .error e => if e.stops then .error e else .ok .failed

/-- Runs the tasks of inputs, of which the first has a given number. -/
def runFrom (p : Pipeline) (work : Work n T O ω) (sink : Sink O σ) (task : Nat) (w : ω)
    (d : Delivery O σ) (stop : Option Error) : List T → n (Option Error × ω × Delivery O σ)
  | [] => pure (stop, w, d)
  | input :: rest => do
    let (r, w) ← work task input w
    match outcome r with
    | .ok out =>
      runFrom p work sink (task + 1) w (d.submit.arrive p.keepOrder sink task out) stop rest
    | .error e => runFrom p work sink (task + 1) w d.submit (stop.or (some e)) rest

/-- Runs a task for every input. Gives the counts, or the error that stopped the program, or else
that of the sink. -/
def run (p : Pipeline) (work : Work n T O ω) (sink : Sink O σ) (w : ω) (s : σ) (inputs : List T) :
    n (Except Error TaskCounts × ω × σ) := do
  let (stop, w, d) ← runFrom p work sink 1 w (.start s) none inputs
  let r := match stop.or d.failure with
    | some e => .error e
    | none => .ok d.counts
  pure (r, w, d.sink)

/-- A sink that puts outputs in front of those before them. -/
def gather : Sink O (List O) := fun _ o outputs => (.ok (), o :: outputs)

/-- The lines of a file that hold work: neither blank nor a comment. -/
def workLines (text : String) : List String :=
  (Text.linesOf text).filter fun line =>
    !Text.isAllBlank line.toList && line.toList.head? != some '#'

/-- The lines of work in a file, read when the file for the results has been made; making it empties
it, also when it is the same file. -/
def openFiles {m : Type → Type} [Monad m] [Files m] (input output : String) :
    ExceptT Error m (List String) := do
  if (← Files.read? (m := m) input).isNone then throw (.groundFile input)
  if !(← Files.write (m := m) output "") then throw (.groundFile output)
  let text := (← Files.read? (m := m) input).getD ""
  return workLines text

end Pipeline

/-- One instance of something for each worker. -/
structure Workers (α : Type) where
  slots : Array α

namespace Workers

variable {α β : Type}

/-- An instance for each of at least one worker. -/
def new (threads : Nat) (instance_ : α) : Workers α :=
  { slots := Array.replicate (max threads 1) instance_ }

/-- Uses the instance of a worker. What was done to it stays, however the use ends. -/
def use (w : Workers α) (worker : Nat) (default : β) (f : α → β × α) : β × Workers α :=
  match w.slots[worker % w.slots.size]? with
  | none => (default, w)
  | some a =>
    let (b, a) := f a
    (b, { slots := w.slots.setIfInBounds (worker % w.slots.size) a })

end Workers

end ProofWalk
