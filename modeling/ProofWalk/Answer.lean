import ProofWalk.Decimal.Layout
import ProofWalk.Files
import ProofWalk.Pipeline.Basic
import ProofWalk.Prover.Basic

/-!
# Answers

The solutions of a query, ranked. Completed states with the same solution add up their scores; the
scores may then be scaled to sum to one. Solutions come in the order of falling scores, those of
equal score in the order of their texts, and equal scores share a rank: 1, 1, 3.

## Main definitions

* `Answer`, `Answers`
* `solutionScores`, `normalized`, `sorted`, `ranked`
* `Answerer.rows` — the rows of answers
* `Answerer.answer` — proves a query
* `Answerer.answerFile` — all queries of a file
-/

namespace ProofWalk

/-- A ranked solution. -/
structure Answer (K : Type) where
  rank : Nat
  score : K
  solution : String

/-- The ranked solutions of a query. -/
structure Answers (K : Type) where
  query : String
  answers : List (Answer K)

section
variable {K : Type} [Scalar K]

/-- The scores of solutions by their text, the sums over completed states. -/
def solutionScores (solution : Nat → Option String) (scores : List (Nat × K)) :
    Std.TreeMap String K :=
  scores.foldl (fun m (u, score) =>
    match solution u with
    | none => m
    | some text => m.insert text (((m[text]?).getD 0) + score)) ∅

/-- Scores scaled to sum to one, if their sum is positive. -/
def normalized (scores : List (String × K)) : List (String × K) :=
  let total := Scalar.sum (scores.map (·.2))
  if 0 < total then scores.map fun (text, score) => (text, score / total) else scores

/-- Solutions in the order of falling scores, those of equal score in the order of their texts. -/
def sorted (scores : List (String × K)) : List (String × K) :=
  scores.mergeSort fun a b => ((Scalar.order b.2 a.2).then (compare a.1 b.1)).isLE

/-- Gives sorted solutions their ranks. `before` solutions stand in front of them, of which the last
has the score and the rank given. -/
def rankFrom (before : Nat) (last : Option (K × Nat)) : List (String × K) → List (Answer K)
  | [] => []
  | (solution, score) :: rest =>
    let rank :=
      match last with
      | some (s, r) => if s == score then r else before + 1
      | none => before + 1
    { rank, score, solution } :: rankFrom (before + 1) (some (score, rank)) rest

/-- Sorted solutions with their ranks, cut to the first `top` if a number is given. -/
def ranked (top : Option Nat) (solutions : List (String × K)) : List (Answer K) :=
  rankFrom 0 none <| match top with
    | some k => solutions.take k
    | none => solutions

end

/-- The lines of the answers to query number `id`, which took some milliseconds. -/
def Answers.text (a : Answers Float) (id milliseconds : Nat) : String :=
  s!"# proved {id}\t{a.query}\t{milliseconds} msec\n" ++
    String.join (a.answers.map fun x =>
      let score := Decimal.plain x.score
      s!"{x.rank}\t{score}\t{x.solution}\n")

/-- What answers queries: a program with its relations, and what becomes of the scores. -/
structure Answerer where
  program : Program
  relations : List Relation
  normalize : Bool
  top : Option Nat

namespace Answerer

/-- The solution of a completed node. -/
def solution? (g : ProofGraph) (u : Nat) : Option String :=
  match g.store.state? u with
  | some s => if s.completed then some (g.fill s).text else none
  | none => none

/-- The rows of the answers to a query whose nodes have scores: the scores of solutions, normalized or not,
ranked and cut. -/
def rows {K : Type} [Scalar K] (a : Answerer) (solution : Nat → Option String) (scores : List (Nat × K)) :
    List (Answer K) :=
  let solutions := (solutionScores solution scores).toList
  let solutions := if a.normalize then normalized solutions else solutions
  ranked a.top (sorted solutions)

/-- The ranked solutions of the query of an example; its labels do not matter. -/
def answer {K : Type} [Scalar K] (a : Answerer) (p : Prover K) (features : FeatureTable)
    (e : LabelledExample) : Except Error (Answers K) × FeatureTable :=
  match p.makeGraph (.unlabelled e.query) a.program a.relations features with
  | .error err => (.error err, features)
  | .ok g =>
    let (r, g) := p.proveOn g
    match r with
    | .error err => (.error err, g.features)
    | .ok scores =>
      (.ok { query := e.query.text, answers := a.rows (solution? g) scores.toList }, g.features)

/-- The lines of the answers to the query on a line, with the time that they took. -/
def answerLine {m : Type → Type} [Monad m] [Clock m] (a : Answerer) (p : Prover Float) :
    Pipeline.Work m String String FeatureTable := fun id line features => do
  match LabelledExample.parse? line id with
  | .error e => pure (.error e, features)
  | .ok e =>
    let started ← Clock.milliseconds
    let (r, features) := a.answer p features e
    let ended ← Clock.milliseconds
    pure (r.map fun answers => some (answers.text id (ended - started)), features)

/-- Answers all queries of a file and writes the answers to another. -/
def answerFile {m : Type → Type} [Monad m] [Files m] [Clock m] (a : Answerer) (p : Prover Float)
    (pipeline : Pipeline) (queries solutions : String) : ExceptT Error m TaskCounts := do
  let lines ← Pipeline.openFiles (m := m) queries solutions
  let (r, _, blocks) ←
    (pipeline.run (a.answerLine p) Pipeline.gather FeatureTable.empty [] lines : m _)
  let _ ← Files.write (m := m) solutions (String.join blocks.reverse)
  match r with
  | .ok counts => pure counts
  | .error e => throw e

end Answerer

end ProofWalk
