import ProofWalk.Learning.Loss
import ProofWalk.Learning.Push
import ProofWalk.Learning.Rounds
import ProofWalk.Learning.Schedule
import ProofWalk.Registry

/-!
# Learners

A learner trains weights on one example at a time: it settles pending decay, walks from the start of
the example's graph, measures the loss at the labelled nodes, moves every trainable weight against
its slope and lets weights decay. One learner walks by rounds, the other by local push.

A feature that has no weight gets one before it is first trained: one if it is fixed, else the
default of the squashing function plus a little noise. The noise is drawn from a stream that the
seed begins; every copy of a learner has a stream of its own.

## Main definitions

* `LearnerKind`, `Learner`
* `Learner.walk` — scores and slopes of an example
* `Training` — a learner with the parameters that it trains
* `Training.introduce`, `Training.step`, `Training.endEpoch`
* `Learner.addGradient` — slopes without training
-/

namespace ProofWalk

-- powers of numbers are those of the core library
attribute [local instance (2000)] instPowNat

/-- The ways to walk. -/
inductive LearnerKind where
  | rounds
  | push
deriving Repr, DecidableEq

/-- The name that a learner is chosen by. -/
def LearnerKind.name : LearnerKind → String
  | rounds => "srw"
  | push => "dpr"

/-- All learners under their names. -/
def LearnerKind.registry : Registry LearnerKind := .ofList name [.rounds, .push]

/-- The learner of a name. -/
def LearnerKind.ofName? (name : String) : Except Error LearnerKind := registry.choose .learner name

/-- What all learners are told: the options of the walk, the squashing function, the learning rate,
the loss, the schedule of regularization and the fixed weights; and the streams of noise. -/
structure LearnerCore (K : Type) where
  options : WalkOptions K
  squash : Squash
  eta : K
  loss : Loss K
  schedule : Schedule K
  fixed : FixedWeights
  seed : Nat
  copies : Nat
  noise : Nat

/-- What an example contributed. -/
structure ExampleResult (K : Type) where
  logLoss : K
  regLoss : K
  zeroGradient : Bool
  nodes : Nat
  edges : Nat

/-- A learner. -/
structure Learner (K : Type) where
  kind : LearnerKind
  core : LearnerCore K

namespace LearnerCore

variable {K : Type} [Scalar K]

/-- The core that a configuration describes. -/
def ofConfig {m : Type → Type} [Monad m] [Files m] (c : Config) :
    ExceptT Error m (LearnerCore K) := do
  let o := c.learning
  match Squash.ofName? o.squash with
  | .error e => throw e
  | .ok squash =>
    match Loss.ofName? o.loss (Scalar.ofFloat o.delta : K) with
    | .error e => throw e
    | .ok loss =>
      let schedule ← Schedule.ofOptions o
      let seed := o.seed.getD 0
      return {
        options := c.walk.map Scalar.ofFloat, squash, eta := Scalar.ofFloat o.eta, loss, schedule
        fixed := (c.fixedWeights.map FixedWeights.parse).getD .standard
        seed, copies := 0, noise := seed }

/-- The learning rate of an epoch: `eta / epoch ^ 2`. -/
def rate (c : LearnerCore K) (epoch : Nat) : K :=
  let epoch : K := Scalar.ofNat (max epoch 1)
  c.eta / (epoch * epoch)

/-- The features of a graph that training may move, with their numbers. -/
def trainable (c : LearnerCore K) (g : LearningGraph) : List (Nat × String) :=
  g.numberedFeatures.filter fun (_, f) => !c.fixed.isFixed f

/-- The next number of the stream of noise. -/
def nextNoise (state : Nat) : Nat := (6364136223846793005 * state + 1442695040888963407) % 2 ^ (64 : Nat)

/-- The noise of a state of the stream: at least zero and below one. -/
def noiseOf (state : Nat) : K := Scalar.ofNat (state / 2 ^ (11 : Nat)) / Scalar.ofNat (2 ^ (53 : Nat))

/-- The first weight of a trainable feature is the default plus this times the noise. -/
def noiseScale : K := Scalar.ofFloat 0.01

/-- Gives a feature its first weight, unless it has one. -/
def introduceFeature (c : LearnerCore K) (p : Parameters K) (name : String) :
    LearnerCore K × Parameters K :=
  if p.contains name then (c, p)
  else if c.fixed.isFixed name then (c, (FixedWeights.introduce p name).touch name c.schedule.clock)
  else
    let noise := nextNoise c.noise
    let weight := c.squash.default + noiseScale * noiseOf noise
    ({ c with noise }, (p.insertIfAbsent name weight).touch name c.schedule.clock)

/-- Gives the features of a graph their first weights. -/
def introduce (c : LearnerCore K) (p : Parameters K) (g : LearningGraph) :
    LearnerCore K × Parameters K :=
  g.features.foldl (fun (c, p) name => c.introduceFeature p name) (c, p)

/-- A copy with a stream of noise of its own, and what the core has become. -/
def copy (c : LearnerCore K) : LearnerCore K × LearnerCore K :=
  let c := { c with copies := c.copies + 1 }
  ({ c with noise := (c.seed + c.copies) % 2 ^ (64 : Nat) }, c)

/-- The probabilities of a graph's edges under parameters. -/
def load (c : LearnerCore K) (p : Parameters K) (g : LearningGraph) :
    Except Error (Transitions K) :=
  Transitions.load c.squash p g

end LearnerCore

namespace Learner

variable {K : Type} [Scalar K]

/-- The learner that a configuration describes. -/
def ofConfig {m : Type → Type} [Monad m] [Files m] (c : Config) : ExceptT Error m (Learner K) := do
  let core ← LearnerCore.ofConfig c
  match LearnerKind.ofName? c.learning.learner with
  | .error e => throw e
  | .ok kind => return { kind, core }

/-- A copy of a learner, and what the learner has become. -/
def copy (l : Learner K) : Learner K × Learner K :=
  let (c, core) := l.core.copy
  ({ l with core := c }, { l with core })

/-- The scores of the nodes of an example with their slopes. -/
def walk (l : Learner K) (e : TrainingExample) (t : Transitions K) : Except Error (DualScores K) :=
  match l.kind with
  | .rounds => .ok (Rounds.walk e t l.core.options.alpha l.core.options.maxDepth)
  | .push => (GradedPush.walk l.core.options e t).map (·.settled)

/-- The loss of an example under parameters. -/
def lossOf (l : Learner K) (p : Parameters K) (e : TrainingExample) :
    Except Error (LossValue K) := do
  let t ← l.core.load p e.graph
  let s ← l.walk e t
  return l.core.loss.evaluate e s

/-- The slope of the loss by a feature for each label of the example. -/
def slopePerLabel (e : TrainingExample) (v : LossValue K) (k : Nat) : K :=
  (v.gradient[k]?).getD 0 / Scalar.ofNat (max e.labelCount 1)

/-- What an example contributed. -/
def result (e : TrainingExample) (v : LossValue K) (regLoss : K) : ExampleResult K :=
  { logLoss := v.loss, regLoss
    zeroGradient := v.gradient.all fun d => d == 0
    nodes := e.graph.nodeCount
    edges := e.graph.edgeCount }

/-- Adds the slopes of the loss of an example to those of others. -/
def addGradient (l : Learner K) (p : Parameters K) (e : TrainingExample) (sum : Parameters K) :
    Except Error (ExampleResult K × Parameters K) := do
  let v ← l.lossOf p e
  let sum := (l.core.trainable e.graph).foldl (fun sum (k, name) =>
    sum.adjust name (slopePerLabel e v k)) sum
  return (result e v 0, sum)

end Learner

/-- A learner with the parameters that it trains. -/
structure Training (K : Type) where
  learner : Learner K
  parameters : Parameters K

namespace Training

variable {K : Type} [Scalar K]

/-- Gives the features of an example their first weights. -/
def introduce (t : Training K) (g : LearningGraph) : Training K :=
  let (core, parameters) := t.learner.core.introduce t.parameters g
  { learner := { t.learner with core }, parameters }

/-- Moves every trainable weight of an example against its slope. -/
def descend (rate : K) (e : TrainingExample) (v : LossValue K) (features : List (Nat × String))
    (p : Parameters K) : Parameters K :=
  features.foldl (fun p (k, name) =>
    let d := Learner.slopePerLabel e v k
    if d != 0 then p.adjust name (-rate * d) else p) p

/-- Trains on an example in an epoch. The clock goes on and pending decay is settled also if the
example fails. -/
def step (t : Training K) (e : TrainingExample) (epoch : Nat) :
    Except Error (ExampleResult K) × Training K :=
  let schedule := t.learner.core.schedule.tick
  let core := { t.learner.core with schedule }
  let learner := { t.learner with core }
  let rate := core.rate epoch
  let features := core.trainable e.graph
  let names := features.map (·.2)
  let (settled, p) := schedule.prepare schedule.clock rate t.parameters names
  match learner.lossOf p e with
  | .error err => (.error err, { learner, parameters := p })
  | .ok v =>
    let p := descend rate e v features p
    let (decayed, p) := schedule.apply core.fixed schedule.clock rate p names
    (.ok (Learner.result e v (settled + decayed)), { learner, parameters := p })

/-- Settles pending decay at the end of an epoch. Gives the loss that it is charged. -/
def endEpoch (t : Training K) (epoch : Nat) : K × Training K :=
  let core := t.learner.core
  let (loss, parameters) := core.schedule.cleanUp core.fixed (core.rate epoch) t.parameters
  (loss, { t with parameters })

end Training

end ProofWalk
