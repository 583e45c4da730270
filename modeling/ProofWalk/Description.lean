import ProofWalk.Engine
import ProofWalk.Decimal.Layout
import ProofWalk.Text.Lines
import ProofWalk.Text.Visibility

/-!
# Descriptions of components

One line on a component for a log: its kind, and the fields that tell how it was set up and how much
it holds. Texts in it are quoted, with escapes for quotes, backslashes and characters that do not show.

## Main definitions

* `Text.quoted` — a text in quotes
* `Text.record`, `Text.listed` — the form of descriptions
* `Engine.describe` and its like — the components
-/

namespace ProofWalk.Text

/-- The escape of a character by its number in base sixteen. -/
def codeEscape (c : Char) : List Char :=
  '\\' :: 'u' :: '\x7b' :: (Nat.toDigits 16 c.toNat ++ ['\x7d'])

/-- A character of a quoted text. -/
def escaped (c : Char) : List Char :=
  match c with
  | '\x00' => ['\\', '0']
  | '\t' => ['\\', 't']
  | '\n' => ['\\', 'n']
  | '\r' => ['\\', 'r']
  | '"' => ['\\', '"']
  | '\\' => ['\\', '\\']
  | _ => if isShown c then [c] else codeEscape c

/-- A text in quotes. -/
def quoted (s : String) : String := String.ofList ('"' :: s.toList.flatMap escaped ++ ['"'])

/-- Items between brackets. -/
def listed (items : List String) : String := "[" ++ ", ".intercalate items ++ "]"

/-- The kind of a component and its fields. -/
def record (kind : String) (fields : List (String × String)) : String :=
  kind ++ " \x7b " ++ ", ".intercalate (fields.map fun (name, text) => name ++ ": " ++ text) ++ " \x7d"

/-- A value that may be absent. -/
def optional (x : Option String) : String :=
  match x with
  | none => "None"
  | some text => "Some(" ++ text ++ ")"

/-- A truth value. -/
def boolean (b : Bool) : String := if b then "true" else "false"

end ProofWalk.Text

namespace ProofWalk

open Text (quoted)

/-- A number in a description. -/
def numberText (n : Nat) : String := String.ofList (Decimal.natDigits n)

/-- A description of the options of a walk. -/
def WalkOptions.describe (o : WalkOptions Float) : String :=
  Text.record "AprOptions" [
    ("alpha", Decimal.descriptive o.alpha),
    ("epsilon", Decimal.descriptive o.epsilon),
    ("max_depth", numberText o.maxDepth),
    ("stay_probability", Decimal.descriptive o.stay),
    ("max_tree_depth", Text.optional (o.maxTreeDepth.map numberText))]

/-- A description of a squashing function. -/
def Squash.describe : Squash → String
  | clippedExp => "ClippedExp"
  | exp => "Exp"
  | linear => "Linear"
  | relu => "ReLU"
  | sigmoid => "Sigmoid"
  | tanh => "Tanh"

/-- A description of a table of features. -/
def FeatureTable.describe (t : FeatureTable) : String :=
  Text.record "FeatureTable" [("count", numberText t.size)]

/-- A description of a machine: the sizes of its parts and the place it is at. -/
def Machine.describe (m : Machine) : String :=
  Text.record "WamInterpreter" [
    ("program_len", numberText m.code.program.size),
    ("query_len", numberText m.code.query.size),
    ("plugins", numberText m.code.relations.length),
    ("pc", numberText m.live.state.pc)]

/-- A description of the builtin filters: the predicates that they answer. -/
def Relation.describeFilters : String :=
  Text.record "FilterPlugin" [("filters", Text.listed [quoted differ])]

/-- What a kind of proof graph is called. -/
def GraphKind.title : GraphKind → String
  | .state => "StateProofGraph"
  | .cachingId => "CachingIdProofGraph"

/-- A description of a proof graph. -/
def ProofGraph.describe (g : ProofGraph) : String :=
  Text.record g.kind.title [
    ("query", quoted g.labelled.query.text), ("nodes", numberText g.store.nodeCount)]

/-- A description of a grounded example. -/
def GroundedExample.describe (g : GroundedExample) : String :=
  Text.record "GroundedExample" [
    ("query", quoted g.labelled.query.text),
    ("nodes", numberText g.graph.store.nodeCount),
    ("edges", numberText g.graph.store.edgeCount),
    ("pos_ids", Text.listed (g.pos.map numberText)),
    ("neg_ids", Text.listed (g.neg.map numberText))]

/-- A description of a pipeline. -/
def Pipeline.describe (p : Pipeline) : String :=
  Text.record "Pipeline" [
    ("threads", numberText p.threads),
    ("throttle", numberText p.throttle),
    ("maintain_order", Text.boolean p.keepOrder)]

/-- A description of what all learners are told. -/
def LearnerCore.describe (c : LearnerCore Float) : String :=
  Text.record "SrwCore" [
    ("apr", c.options.describe),
    ("squash", c.squash.describe),
    ("eta", Decimal.descriptive c.eta),
    ("loss", quoted c.loss.name),
    ("regularizer", quoted c.schedule.regularizer.name),
    ("lazy", Text.boolean c.schedule.isLazy)]

/-- A description of a stopping criterion. -/
def Stopping.describe (s : Stopping Float) : String :=
  Text.record "StoppingCriterion" [
    ("max_epochs", numberText s.maxEpochs),
    ("percent", Decimal.descriptive s.percent),
    ("window", numberText s.window),
    ("epochs", numberText s.epochs),
    ("stalled", numberText s.stalled)]

/-- A description of a trainer. -/
def Trainer.describe (t : Trainer Float) : String :=
  Text.record "Trainer" [
    ("learner", quoted t.learner.kind.name),
    ("pipeline", t.pipeline.describe),
    ("criterion", t.stopping.describe)]

/-- A description of what finds gradients. -/
def GradientFinder.describe (f : GradientFinder Float) : String :=
  Text.record "GradientFinder" [
    ("learner", quoted f.learner.kind.name), ("pipeline", f.pipeline.describe)]

/-- A description of an engine. -/
def Engine.describe (e : Engine) : String :=
  Text.record "Engine" [
    ("instructions", numberText e.program.size),
    ("plugins", numberText e.relations.length),
    ("params", numberText e.parameters.size)]

end ProofWalk
