import ProofWalk.Config.Basic
import ProofWalk.Learning.FixedWeights
import ProofWalk.Learning.Regularizer

/-!
# Regularization schedules

When weights decay. A clock counts the examples. The synchronous schedule lets every trainable
weight decay by one step after each example. The lazy one settles only the weights that an example
reads, with as many steps as the clock has gone on since, and settles all others at the end of an
epoch.

## Main definitions

* `Schedule`, `Schedule.ofOptions`
* `Schedule.tick`, `Schedule.prepare`, `Schedule.apply`, `Schedule.cleanUp`
-/

namespace ProofWalk

/-- A regularizer, whether it is applied lazily, and the clock. -/
structure Schedule (K : Type) where
  regularizer : Regularizer K
  isLazy : Bool
  clock : Nat

namespace Schedule

variable {K : Type} [Scalar K]

/-- A schedule whose clock has not begun. -/
def new (regularizer : Regularizer K) (isLazy : Bool) : Schedule K :=
  { regularizer, isLazy, clock := 0 }

/-- Whether the schedule of a name is lazy. -/
def lazyOfName? : String → Except Error Bool
  | "sync" => .ok false
  | "lazy" => .ok true
  | other => .error (.unknownComponent .schedule other)

/-- The affinity that options name, none if they name no file. -/
def affinityOf {m : Type → Type} [Monad m] [Files m] (o : LearningOptions) :
    ExceptT Error m Affinity :=
  match o.affinityFile with
  | none => pure .empty
  | some path => Affinity.load path

/-- The regularizer of options. -/
def regularizerOf {m : Type → Type} [Monad m] [Files m] (o : LearningOptions) :
    ExceptT Error m (Regularizer K) := do
  let mu := Scalar.ofFloat o.mu
  let zeta := Scalar.ofFloat o.zeta
  match o.regularizer with
  | "none" => return .none
  | "l1" => return .l1 mu
  | "l2" => return .l2 mu
  | "l1laplacian" => return .laplacian mu zeta (← affinityOf o)
  | "l1grouplasso" => return .groupLasso mu zeta (← affinityOf o)
  | other => throw (.unknownComponent .regularizer other)

/-- The schedule of options. -/
def ofOptions {m : Type → Type} [Monad m] [Files m] (o : LearningOptions) :
    ExceptT Error m (Schedule K) := do
  match lazyOfName? o.schedule with
  | .error e => throw e
  | .ok isLazy => return new (← regularizerOf o) isLazy

/-- The schedule after the clock has gone on by one. -/
def tick (s : Schedule K) : Schedule K := { s with clock := s.clock + 1 }

/-- Lets a weight decay by the steps that it has not taken up to a clock. -/
def settle (s : Schedule K) (clock : Nat) (rate : K) (p : Parameters K) (feature : String) :
    K × Parameters K :=
  let steps := clock - p.touched feature
  s.regularizer.decay (p.touch feature clock) feature steps rate

/-- Applies a decay to features one after the other and adds up what it charges. -/
def overFeatures (decay : Parameters K → String → K × Parameters K) (p : Parameters K)
    (features : List String) : K × Parameters K :=
  features.foldl (fun (loss, p) feature =>
    let (more, p) := decay p feature
    (loss + more, p)) (0, p)

/-- Settles the features that the example of a clock is about to read. -/
def prepare (s : Schedule K) (clock : Nat) (rate : K) (p : Parameters K) (features : List String) :
    K × Parameters K :=
  if s.isLazy then overFeatures (s.settle (clock - 1) rate) p features else (0, p)

/-- The trainable features among the parameters. -/
def trainable (fixed : FixedWeights) (p : Parameters K) : List String :=
  p.names.filter fun f => !fixed.isFixed f

/-- The decay after the example of a clock, which trained the given features. -/
def apply (s : Schedule K) (fixed : FixedWeights) (clock : Nat) (rate : K) (p : Parameters K)
    (features : List String) : K × Parameters K :=
  if s.isLazy then overFeatures (s.settle clock rate) p features
  else overFeatures (fun p f => s.regularizer.decay p f 1 rate) p (trainable fixed p)

/-- Settles all trainable features at the end of an epoch. -/
def cleanUp (s : Schedule K) (fixed : FixedWeights) (rate : K) (p : Parameters K) :
    K × Parameters K :=
  if s.isLazy then overFeatures (s.settle s.clock rate) p (trainable fixed p) else (0, p)

end Schedule

end ProofWalk
