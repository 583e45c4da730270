import ProofWalk.Learning.Schedule
import ProofWalk.Proofs.Parameters

/-!
# What a decay looks at

The steps of every regularizer look at weights and at nothing else. They set the weight of one feature that
has one: no feature is new and no clock moves. A schedule moves the clocks of the features that it settles.

## Main definitions

* `Regularizer.DecaysAlike` — two decays side by side

## Main results

* `Regularizer.decay_alike` — a decay looks at weights only
* `Regularizer.decay_steady`, `Regularizer.get?_decay_of_ne`, `Regularizer.decay_zero` — what a decay leaves
  as it was
* `Schedule.isSome_settle`, `Schedule.touched_settle` — what settling does to features and clocks
-/

namespace ProofWalk

namespace Regularizer

section
variable {K : Type} {clocks : Bool} {p p' : Parameters K} {feature : String}

/-- Decays of two parameters are charged the same and leave like parameters; they bring in no feature and
move no clock. -/
structure DecaysAlike (clocks : Bool) (p : Parameters K) (x y : K × Parameters K) : Prop where
  charge : x.1 = y.1
  like : x.2.Like clocks y.2
  steady : p.Steady x.2

namespace DecaysAlike

theorem kept (like : p.Like clocks p') (charge : K) : DecaysAlike clocks p (charge, p) (charge, p') :=
  ⟨rfl, like, .refl⟩

theorem set (like : p.Like clocks p') {before : K} (found : p'.get? feature = some before) (charge w : K) :
    DecaysAlike clocks p (charge, p.set feature w) (charge, p'.set feature w) :=
  ⟨rfl, like.set feature w, .set (by rw [like.weight, found, Option.isSome_some]) w⟩

/-- A decay that goes on from where another has ended. -/
theorem andThen [Add K] {x y x' y' : K × Parameters K} (first : DecaysAlike clocks p x y)
    (next : x.2.Like clocks y.2 → DecaysAlike clocks x.2 x' y') :
    DecaysAlike clocks p (x.1 + x'.1, x'.2) (y.1 + y'.1, y'.2) :=
  have second := next first.like
  ⟨by rw [first.charge, second.charge], second.like, first.steady.trans second.steady⟩

end DecaysAlike

end

variable {K : Type} [Scalar K] {clocks : Bool} {p p' : Parameters K} {feature : String} {steps : Nat}
  {rate : K}

theorem shrink_alike (mu : K) (like : p.Like clocks p') :
    DecaysAlike clocks p (shrink mu p feature steps rate) (shrink mu p' feature steps rate) := by
  rw [shrink, shrink, like.weight]
  split
  · exact .kept like _
  next w found =>
    dsimp only
    split
    · exact .kept like _
    · exact .set like found _ _

theorem contract_alike (mu : K) (like : p.Like clocks p') :
    DecaysAlike clocks p (contract mu p feature steps rate) (contract mu p' feature steps rate) := by
  rw [contract, contract, like.weight]
  split
  · exact .kept like _
  next w found =>
    split
    · exact .kept like _
    · exact .set like found _ _

theorem smooth_alike (zeta : K) (neighbours : List String) (like : p.Like clocks p') :
    DecaysAlike clocks p (smooth zeta neighbours p feature steps rate)
      (smooth zeta neighbours p' feature steps rate) := by
  have others : (neighbours.map fun n => p.getD n 0) = neighbours.map fun n => p'.getD n 0 :=
    List.map_congr_left fun n _ => like.getD n 0
  rw [smooth, smooth, like.weight, others]
  split
  · exact .kept like _
  next w found =>
    split
    · exact .kept like _
    · exact .set like found _ _

theorem shrinkGroup_alike (zeta : K) (neighbours : List String) (like : p.Like clocks p') :
    DecaysAlike clocks p (shrinkGroup zeta neighbours p feature steps rate)
      (shrinkGroup zeta neighbours p' feature steps rate) := by
  have others : (neighbours.map fun n => p.getD n 0 * p.getD n 0) =
      neighbours.map fun n => p'.getD n 0 * p'.getD n 0 :=
    List.map_congr_left fun n _ => by rw [like.getD n 0]
  rw [shrinkGroup, shrinkGroup, like.weight, others]
  split
  · exact .kept like _
  next w found =>
    split
    · exact .kept like _
    · dsimp only
      split
      · exact .set like found _ _
      · exact .kept like _

/-- A decay looks at weights only, and changes nothing but weights. -/
theorem decay_alike (r : Regularizer K) (feature : String) (steps : Nat) (rate : K)
    (like : p.Like clocks p') :
    DecaysAlike clocks p (r.decay p feature steps rate) (r.decay p' feature steps rate) := by
  cases r with
  | none => exact .kept like 0
  | l1 mu => exact shrink_alike mu like
  | l2 mu => exact contract_alike mu like
  | laplacian mu zeta affinity =>
    simp only [decay]
    split
    · exact .kept like 0
    · cases affinity.neighbours? feature with
      | none => exact (DecaysAlike.kept like 0).andThen (shrink_alike mu)
      | some neighbours => exact (smooth_alike zeta neighbours like).andThen (shrink_alike mu)
  | groupLasso mu zeta affinity =>
    simp only [decay]
    split
    · exact .kept like 0
    · cases affinity.neighbours? feature with
      | none => exact (DecaysAlike.kept like 0).andThen (shrink_alike mu)
      | some neighbours => exact (shrinkGroup_alike zeta neighbours like).andThen (shrink_alike mu)

/-- A decay brings in no feature and moves no clock. -/
theorem decay_steady (r : Regularizer K) (p : Parameters K) (feature : String) (steps : Nat) (rate : K) :
    p.Steady (r.decay p feature steps rate).2 :=
  (r.decay_alike feature steps rate (show p.Like true p from .refl)).steady

/-- No steps change nothing. -/
theorem decay_zero (r : Regularizer K) (p : Parameters K) (feature : String) (rate : K) :
    r.decay p feature 0 rate = (0, p) := by
  cases r with
  | none => rfl
  | l1 mu =>
    rw [decay, shrink]
    split <;> rfl
  | l2 mu =>
    rw [decay, contract]
    split <;> rfl
  | laplacian => rfl
  | groupLasso => rfl

/-! ### Other features -/

section
variable {f : String}

theorem get?_shrink_of_ne (mu : K) (other : f ≠ feature) :
    (shrink mu p feature steps rate).2.get? f = p.get? f := by
  rw [shrink]
  split
  · rfl
  · dsimp only
    split
    · rfl
    · rw [Parameters.get?_set, if_neg other]

theorem get?_contract_of_ne (mu : K) (other : f ≠ feature) :
    (contract mu p feature steps rate).2.get? f = p.get? f := by
  rw [contract]
  split
  · rfl
  · split
    · rfl
    · rw [Parameters.get?_set, if_neg other]

theorem get?_smooth_of_ne (zeta : K) (neighbours : List String) (other : f ≠ feature) :
    (smooth zeta neighbours p feature steps rate).2.get? f = p.get? f := by
  rw [smooth]
  split
  · rfl
  · split
    · rfl
    · rw [Parameters.get?_set, if_neg other]

theorem get?_shrinkGroup_of_ne (zeta : K) (neighbours : List String) (other : f ≠ feature) :
    (shrinkGroup zeta neighbours p feature steps rate).2.get? f = p.get? f := by
  rw [shrinkGroup]
  split
  · rfl
  · split
    · rfl
    · dsimp only
      split
      · rw [Parameters.get?_set, if_neg other]
      · rfl

/-- A decay reads the weights of neighbours, but writes the weight of its own feature only. -/
theorem get?_decay_of_ne (r : Regularizer K) (other : f ≠ feature) :
    (r.decay p feature steps rate).2.get? f = p.get? f := by
  cases r with
  | none => rfl
  | l1 mu => exact get?_shrink_of_ne mu other
  | l2 mu => exact get?_contract_of_ne mu other
  | laplacian mu zeta affinity =>
    simp only [decay]
    split
    · rfl
    · rw [get?_shrink_of_ne mu other]
      split
      · rfl
      · exact get?_smooth_of_ne zeta _ other
  | groupLasso mu zeta affinity =>
    simp only [decay]
    split
    · rfl
    · rw [get?_shrink_of_ne mu other]
      split
      · rfl
      · exact get?_shrinkGroup_of_ne zeta _ other

end

end Regularizer

namespace Schedule

variable {K : Type} [Scalar K] {s : Schedule K} {p : Parameters K} {clock : Nat} {rate : K} {f g : String}

/-- What is charged makes no difference to the parameters. -/
theorem overFeatures_parameters (decay : Parameters K → String → K × Parameters K) (p : Parameters K)
    (features : List String) :
    (overFeatures decay p features).2 = features.foldl (fun p f => (decay p f).2) p := by
  unfold overFeatures
  generalize (0 : K) = loss
  induction features generalizing loss p with
  | nil => rfl
  | cons f rest ih => exact ih _ _

omit [Scalar K] in
theorem mem_trainable {fixed : FixedWeights} {p : Parameters K} {f : String} :
    f ∈ trainable fixed p ↔ (p.get? f).isSome ∧ fixed.isFixed f = false := by
  simp [trainable, Parameters.mem_names]

omit [Scalar K] in
theorem trainable_congr {fixed : FixedWeights} {p p' : Parameters K} {clocks : Bool}
    (like : p.Like clocks p') : trainable fixed p = trainable fixed p' := by
  rw [trainable, trainable, like.names]

theorem isSome_settle : ((s.settle clock rate p f).2.get? g).isSome = (p.get? g).isSome := by
  rw [settle, (s.regularizer.decay_steady ..).isSome, Parameters.get?_touch]

theorem touched_settle :
    (s.settle clock rate p f).2.touched g =
      if g = f ∧ (p.get? f).isSome then max (p.touched f) clock else p.touched g := by
  rw [settle, (s.regularizer.decay_steady ..).touched, Parameters.touched_touch]

end Schedule

end ProofWalk
