import ProofWalk.Error

/-!
# Delivery of results

Tasks are numbered from one. Their results arrive in any order and are handed to a sink, in the
order of the tasks if that is asked for: a result then waits until all before it have arrived. After
a failure of the sink nothing more is handed to it, but results are still counted.

## Main definitions

* `Outcome` — what a task handed back
* `Delivery` — counts, waiting results and the sink
* `Delivery.arrive` — takes the result of one task
-/

namespace ProofWalk

/-- What a task handed back: an output, nothing, or a failure. -/
inductive Outcome (O : Type) where
  | output (o : O)
  | skipped
  | failed

/-- How many tasks there were, and how many gave an output that the sink took, gave nothing, and
failed. -/
structure TaskCounts where
  submitted : Nat
  emitted : Nat
  skipped : Nat
  failed : Nat
deriving Repr, DecidableEq

/-- No tasks. -/
def TaskCounts.zero : TaskCounts := { submitted := 0, emitted := 0, skipped := 0, failed := 0 }

/-- Where outputs go: a sink has a state of type `σ`, and taking an output may fail. -/
abbrev Sink (O σ : Type) := Nat → O → σ → Except Error Unit × σ

/-- The results taken so far: those that wait for an earlier one by task, the task that is next in
order, the state of the sink and its failure. -/
structure Delivery (O σ : Type) where
  counts : TaskCounts
  waiting : List (Nat × Outcome O)
  next : Nat
  sink : σ
  failure : Option Error

namespace Delivery

variable {O σ : Type}

/-- Nothing has arrived. -/
def start (s : σ) : Delivery O σ :=
  { counts := .zero, waiting := [], next := 1, sink := s, failure := none }

/-- Counts a result, and hands an output to the sink unless the sink has failed. -/
def emit (sink : Sink O σ) (d : Delivery O σ) (task : Nat) : Outcome O → Delivery O σ
  | .skipped => { d with counts := { d.counts with skipped := d.counts.skipped + 1 } }
  | .failed => { d with counts := { d.counts with failed := d.counts.failed + 1 } }
  | .output o =>
    if d.failure.isSome then d
    else
      match sink task o d.sink with
      | (.ok (), s) =>
        { d with sink := s, counts := { d.counts with emitted := d.counts.emitted + 1 } }
      | (.error e, s) => { d with sink := s, failure := some e }

/-- Emits the waiting results that are next in order, at most `limit` of them. -/
def release (sink : Sink O σ) : Nat → Delivery O σ → Delivery O σ
  | 0, d => d
  | limit + 1, d =>
    match d.waiting.lookup d.next with
    | none => d
    | some out =>
      let task := d.next
      let d := { d with waiting := d.waiting.filter fun w => w.1 != task, next := task + 1 }
      release sink limit (emit sink d task out)

/-- Takes the result of a task. -/
def arrive (inOrder : Bool) (sink : Sink O σ) (d : Delivery O σ) (task : Nat) (out : Outcome O) :
    Delivery O σ :=
  if inOrder then
    let d := { d with waiting := (task, out) :: d.waiting }
    release sink d.waiting.length d
  else emit sink d task out

/-- Another task has been handed out. -/
def submit (d : Delivery O σ) : Delivery O σ :=
  { d with counts := { d.counts with submitted := d.counts.submitted + 1 } }

end Delivery

end ProofWalk
