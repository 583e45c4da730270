import ProofWalk.Pipeline.Basic

/-!
# Backlog of a pipeline at work

The producer of a pipeline hands out one task after the other while the workers run them. A task is
in flight from when it is handed out until it ends, also if it ends without a result. With more
tasks in flight than the throttle allows the producer falls asleep, and it goes on when no more are
left than there are workers. A worker at the end of a task hands in the result, counts the task off
and then wakes the producer, which looks at the count again.

The moves of the producer and of the workers come in any order. This file says which moves a
pipeline can make and what they do; `Delivery` says what becomes of the results.

## Main definitions

* `Backlog` — how many tasks are in flight
* `Dispatch` — a pipeline at work
* `Dispatch.move?` — what a move leads to, if it can be made
* `Dispatch.run?` — what a list of moves leads to
-/

namespace ProofWalk

/-- How many tasks are in flight. -/
structure Backlog where
  inFlight : Nat
deriving Repr, DecidableEq

namespace Backlog

/-- One more task is in flight. -/
def submit (b : Backlog) : Backlog := { inFlight := b.inFlight + 1 }

/-- One task less is in flight; the count does not fall below zero. -/
def finish (b : Backlog) : Backlog := { inFlight := b.inFlight - 1 }

end Backlog

/-- Where the producer stands. -/
inductive Producer where
  /-- Before the next input. -/
  | offering
  /-- Until a worker wakes it. -/
  | asleep
  /-- Woken, before it looks at the backlog again. -/
  | awake
  /-- Free to hand out the next input. -/
  | free
  /-- Behind the last input, while results are outstanding. -/
  | draining
  | done
deriving Repr, DecidableEq

/-- A pipeline at work: the inputs not handed out, the tasks that wait for a worker, that run, that
are over and that have been counted off, the results not taken and those taken. -/
structure Dispatch where
  producer : Producer
  backlog : Backlog
  inputs : Nat
  queued : Nat
  running : Nat
  ending : Nat
  waking : Nat
  results : Nat
  received : Nat
deriving Repr, DecidableEq

/-- A move of the producer or of a worker. -/
inductive Move where
  /-- The producer looks at the backlog before it hands out an input. -/
  | throttle
  /-- The producer looks at the backlog after it has been woken. -/
  | look
  /-- The producer hands out an input. -/
  | submit
  /-- The producer takes a result. -/
  | take
  /-- The producer has no more inputs. -/
  | close
  /-- The producer has no more results to wait for. -/
  | leave
  /-- A worker begins a task. -/
  | start
  /-- A worker ends a task with a result. -/
  | handIn
  /-- A worker ends a task that broke off. -/
  | breakOff
  /-- A worker counts off a task. -/
  | release
  /-- A worker wakes the producer. -/
  | wake
deriving Repr, DecidableEq

namespace Dispatch

/-- A pipeline before its first input. -/
def start (inputs : Nat) : Dispatch :=
  { producer := .offering, backlog := { inFlight := 0 }, inputs, queued := 0, running := 0
    ending := 0, waking := 0, results := 0, received := 0 }

/-- The tasks that have been handed out and not been counted off. -/
def unfinished (d : Dispatch) : Nat := d.queued + d.running + d.ending

/-- The workers that have a task. -/
def busy (d : Dispatch) : Nat := d.running + d.ending + d.waking

/-- Where the producer stands when it has found too many tasks in flight, or few enough. -/
def settle (p : Pipeline) (d : Dispatch) : Dispatch :=
  { d with producer := if p.threads < d.backlog.inFlight then .asleep else .free }

/-- What a move leads to, if it can be made. -/
def move? (p : Pipeline) (d : Dispatch) : Move → Option Dispatch
  | .throttle =>
    if d.producer = .offering ∧ 0 < d.inputs then
      some (if p.throttle < d.backlog.inFlight then d.settle p else { d with producer := .free })
    else none
  | .look => if d.producer = .awake then some (d.settle p) else none
  | .submit =>
    if d.producer = .free then
      some { d with
        producer := .offering, backlog := d.backlog.submit, inputs := d.inputs - 1
        queued := d.queued + 1 }
    else none
  | .take =>
    if (d.producer = .offering ∨ d.producer = .draining) ∧ 0 < d.results then
      some { d with results := d.results - 1, received := d.received + 1 }
    else none
  | .close =>
    if d.producer = .offering ∧ d.inputs = 0 then some { d with producer := .draining } else none
  | .leave =>
    if d.producer = .draining ∧ d.results = 0 ∧ d.unfinished = 0 then
      some { d with producer := .done }
    else none
  | .start =>
    if 0 < d.queued ∧ d.busy < p.threads then
      some { d with queued := d.queued - 1, running := d.running + 1 }
    else none
  | .handIn =>
    if 0 < d.running then
      some { d with running := d.running - 1, ending := d.ending + 1, results := d.results + 1 }
    else none
  | .breakOff =>
    if 0 < d.running then some { d with running := d.running - 1, ending := d.ending + 1 } else none
  | .release =>
    if 0 < d.ending then
      some { d with backlog := d.backlog.finish, ending := d.ending - 1, waking := d.waking + 1 }
    else none
  | .wake =>
    if 0 < d.waking then
      some { d with
        waking := d.waking - 1
        producer := if d.producer = .asleep then .awake else d.producer }
    else none

/-- What a list of moves leads to, if all of them can be made in turn. -/
def run? (p : Pipeline) (d : Dispatch) (moves : List Move) : Option Dispatch :=
  moves.foldlM (move? p) d

/-- The pipeline has come to its end: all tasks have ended and the producer has left. -/
def isFinal (d : Dispatch) : Bool :=
  d.producer = .done ∧ d.unfinished = 0 ∧ d.waking = 0

end Dispatch

end ProofWalk
