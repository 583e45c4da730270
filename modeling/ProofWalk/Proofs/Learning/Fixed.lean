import ProofWalk.Proofs.Learning.Runs
import ProofWalk.Proofs.Learning.Schedules

/-!
# Fixed weights never move

Weights are written in five places: a feature gets its first weight, pending decay is settled before an
example, the example moves weights along its slopes, weights decay after it, and pending decay is settled
at the end of an epoch. Slopes can also be added up without training. Each of these leaves the features alone
that the rules fix; only their first weight, which is one, is ever given to them.

What happens to one learner is told as a list of calls. The vectors of parameters that it works on are
numbered, so the sum of slopes may be any of them, also one that is trained.

## Main definitions

* `FixedWeights.Fixes` — the first rule that is about a feature fixes it
* `Workbench`, `LearnerCall` — a learner among vectors of parameters, and what it can be asked for
* `Workbench.run` — what calls leave, whether or not they succeed

## Main results

* `FixedWeights.fixes_reserved` — the features that the program itself gives to edges are always fixed
* `Training.get?_step`, `Training.get?_endEpoch`, `Learner.get?_addGradient` — one call
* `Workbench.get?_run`, `Workbench.fixed_weights_stay` — any calls
* `Trainer.train_keeps_fixed` — a run over a file
-/

namespace ProofWalk

/-! ### The deciding rule -/

namespace FixedWeights

/-- The first rule that is about a feature fixes it. -/
def Fixes (w : FixedWeights) (feature : String) : Prop :=
  ∃ before rule after, w.rules = before ++ rule :: after ∧
    (∀ earlier ∈ before, earlier.claims feature = false) ∧ rule.claims feature = true ∧
    rule.fixed = true

theorem fixes_iff {w : FixedWeights} {feature : String} : w.Fixes feature ↔ w.isFixed feature = true := by
  constructor
  · rintro ⟨before, rule, after, rules, earlier, claims, fixed⟩
    have first : w.rules.find? (·.claims feature) = some rule :=
      List.find?_eq_some_iff_append.2 ⟨claims, before, after, rules, fun r member => by
        rw [earlier r member, Bool.not_false]⟩
    rw [isFixed, first]
    exact fixed
  · intro fixed
    rw [isFixed] at fixed
    split at fixed
    next rule first =>
      obtain ⟨claims, before, after, rules, earlier⟩ := List.find?_eq_some_iff_append.1 first
      exact ⟨before, rule, after, rules, fun r member => by simpa using earlier r member, claims, fixed⟩
    next => cases fixed

/-- Rules that stand behind others do not change what the first ones decide. -/
theorem Fixes.append {w : FixedWeights} {feature : String} (fixes : w.Fixes feature)
    (rules : List FixedRule) : (FixedWeights.mk (w.rules ++ rules)).Fixes feature := by
  obtain ⟨before, rule, after, is, earlier, claims, fixed⟩ := fixes
  exact ⟨before, rule, after ++ rules, by rw [is, List.append_assoc, List.cons_append], earlier, claims,
    fixed⟩

/-- The features that the program itself gives to edges are fixed, whatever rules are added. -/
theorem fixes_reserved (spec : String) :
    ∀ feature ∈ [restartFeature, loopFeature, startLoopFeature], (parse spec).Fixes feature := by
  have standards : ∀ feature ∈ [restartFeature, loopFeature, startLoopFeature],
      standard.isFixed feature = true := by decide
  exact fun feature reserved => (fixes_iff.2 (standards feature reserved)).append _

end FixedWeights

/-! ### Decay -/

namespace Schedule

variable {K : Type} [Scalar K] {f : String} {rate : K} {p : Parameters K} {features : List String}

theorem get?_settle_of_ne (s : Schedule K) (clock : Nat) {g : String} (other : f ≠ g) :
    (s.settle clock rate p g).2.get? f = p.get? f := by
  rw [settle, s.regularizer.get?_decay_of_ne other, Parameters.get?_touch]

/-- Decays that each keep to their own feature leave all features alone that are not among them. -/
theorem get?_overFeatures {decay : Parameters K → String → K × Parameters K}
    (own : ∀ p g, f ≠ g → (decay p g).2.get? f = p.get? f) (outside : f ∉ features) :
    (overFeatures decay p features).2.get? f = p.get? f := by
  rw [overFeatures_parameters]
  induction features generalizing p with
  | nil => rfl
  | cons g rest ih =>
    obtain ⟨other, outside⟩ := not_or.1 (mt List.mem_cons.2 outside)
    rw [List.foldl_cons, ih outside, own p g other]

omit [Scalar K] in
theorem not_mem_trainable {fixed : FixedWeights} (held : fixed.isFixed f = true) :
    f ∉ trainable fixed p := fun member => by
  rw [(mem_trainable.1 member).2] at held
  cases held

theorem get?_prepare (s : Schedule K) (clock : Nat) (outside : f ∉ features) :
    (s.prepare clock rate p features).2.get? f = p.get? f := by
  rw [prepare]
  split
  · exact get?_overFeatures (fun _ _ other => s.get?_settle_of_ne _ other) outside
  · rfl

theorem get?_apply (s : Schedule K) {fixed : FixedWeights} (clock : Nat) (held : fixed.isFixed f = true)
    (outside : f ∉ features) : (s.apply fixed clock rate p features).2.get? f = p.get? f := by
  rw [apply]
  split
  · exact get?_overFeatures (fun _ _ other => s.get?_settle_of_ne _ other) outside
  · exact get?_overFeatures (fun _ _ other => s.regularizer.get?_decay_of_ne other)
      (not_mem_trainable held)

theorem get?_cleanUp (s : Schedule K) {fixed : FixedWeights} (held : fixed.isFixed f = true) :
    (s.cleanUp fixed rate p).2.get? f = p.get? f := by
  rw [cleanUp]
  split
  · exact get?_overFeatures (fun _ _ other => s.get?_settle_of_ne _ other) (not_mem_trainable held)
  · rfl

end Schedule

/-! ### One call -/

/-- Adjusting features leaves all others alone. -/
theorem Parameters.get?_foldl_of_not_mem {K ι : Type} {change : Parameters K → ι × String → Parameters K}
    {f : String} (own : ∀ p x, f ≠ x.2 → (change p x).get? f = p.get? f) {features : List (ι × String)}
    (outside : f ∉ features.map (·.2)) (p : Parameters K) :
    (features.foldl change p).get? f = p.get? f := by
  induction features generalizing p with
  | nil => rfl
  | cons x rest ih =>
    obtain ⟨other, outside⟩ := not_or.1 (mt List.mem_cons.2 outside)
    rw [List.foldl_cons, ih outside, own p x other]

namespace LearnerCore

variable {K : Type} [Scalar K] {f : String}

theorem get?_introduceFeature (c : LearnerCore K) (held : c.fixed.isFixed f = true) (p : Parameters K)
    (name : String) :
    (c.introduceFeature p name).2.get? f =
      if f = name then some ((p.get? f).getD 1) else p.get? f := by
  rw [introduceFeature, Parameters.contains_eq_isSome]
  cases found : p.get? name with
  | some w =>
    rw [Option.isSome_some, if_pos rfl]
    split
    next same => rw [same, found, Option.getD_some]
    next => rfl
  | none =>
    rw [Option.isSome_none, if_neg Bool.false_ne_true]
    split
    next => simp +contextual [FixedWeights.introduce, found]
    next free =>
      -- the feature is fixed, so it is not this one
      have other : f ≠ name := fun same => free (same ▸ held)
      simp [other]

theorem get?_introduce (c : LearnerCore K) (held : c.fixed.isFixed f = true) (p : Parameters K)
    (g : LearningGraph) :
    (c.introduce p g).2.get? f = if f ∈ g.features then some ((p.get? f).getD 1) else p.get? f := by
  rw [introduce, ← Array.foldl_toList]
  simp only [← Array.mem_toList_iff]
  generalize g.features.toList = names
  induction names generalizing c p with
  | nil => rfl
  | cons name rest ih =>
    obtain ⟨noise, core⟩ := Training.exists_noise_introduceFeature c p name
    have heldStill : (c.introduceFeature p name).1.fixed.isFixed f = true := by rwa [core]
    have others := ih (c.introduceFeature p name).1 heldStill (c.introduceFeature p name).2
    rw [c.get?_introduceFeature held p name] at others
    rw [List.foldl_cons]
    refine others.trans ?_
    by_cases same : f = name <;> by_cases later : f ∈ rest <;> simp [same, later]

theorem fixed_introduce (c : LearnerCore K) (p : Parameters K) (g : LearningGraph) :
    (c.introduce p g).1.fixed = c.fixed := by
  obtain ⟨noise, core⟩ := Training.exists_noise_introduce c p g
  rw [core]

end LearnerCore

namespace Training

variable {K : Type} [Scalar K] {f : String} {t : Training K} {e : TrainingExample} {epoch : Nat}

/-- A fixed feature keeps its weight when the features of a graph get their first weights. If it has none and
is among them, it gets one. -/
theorem get?_introduce (held : t.learner.core.fixed.isFixed f = true) (g : LearningGraph) :
    (t.introduce g).parameters.get? f =
      if f ∈ g.features then some ((t.parameters.get? f).getD 1) else t.parameters.get? f :=
  LearnerCore.get?_introduce _ held ..

omit [Scalar K] in
theorem not_mem_movable (held : t.learner.core.fixed.isFixed f = true) : f ∉ t.movable e := fun member => by
  rw [(mem_movable.1 member).2] at held
  cases held

theorem get?_prepared (held : t.learner.core.fixed.isFixed f = true) :
    (t.prepared e epoch).get? f = t.parameters.get? f :=
  Schedule.get?_prepare _ _ (not_mem_movable held)

theorem get?_descend (held : t.learner.core.fixed.isFixed f = true) (rate : K) (v : LossValue K)
    (p : Parameters K) : (descend rate e v (t.learner.core.trainable e.graph) p).get? f = p.get? f := by
  refine Parameters.get?_foldl_of_not_mem (fun p x other => ?_) (not_mem_movable (t := t) held) p
  dsimp only
  split
  · rw [Parameters.get?_adjust, if_neg other]
  · rfl

theorem get?_moved (held : t.learner.core.fixed.isFixed f = true) (v : LossValue K) :
    (t.moved e epoch v).get? f = t.parameters.get? f := by
  rw [moved, Schedule.get?_apply _ _ held (not_mem_movable held), get?_descend held, get?_prepared held]

/-- Training on an example leaves a fixed weight as it was, also if the example fails. -/
theorem get?_step (held : t.learner.core.fixed.isFixed f = true) (e : TrainingExample) (epoch : Nat) :
    (t.step e epoch).2.parameters.get? f = t.parameters.get? f := by
  rw [step_eq]
  split
  · exact get?_prepared held
  · exact get?_moved held _

theorem fixed_step (t : Training K) (e : TrainingExample) (epoch : Nat) :
    (t.step e epoch).2.learner.core.fixed = t.learner.core.fixed := by
  rw [step_eq]
  split <;> rfl

/-- So does the end of an epoch. -/
theorem get?_endEpoch (held : t.learner.core.fixed.isFixed f = true) (epoch : Nat) :
    (t.endEpoch epoch).2.parameters.get? f = t.parameters.get? f :=
  Schedule.get?_cleanUp _ held

end Training

/-- No slope of a fixed feature is added up. -/
theorem Learner.get?_addGradient {K : Type} [Scalar K] {l : Learner K} {f : String}
    (held : l.core.fixed.isFixed f = true) {p sum sum' : Parameters K} {e : TrainingExample}
    {result : ExampleResult K} (added : l.addGradient p e sum = .ok (result, sum')) :
    sum'.get? f = sum.get? f := by
  obtain ⟨v, -, sums⟩ := Except.bind_eq_ok.1 added
  cases sums
  refine Parameters.get?_foldl_of_not_mem (fun p x other => ?_)
    (Training.not_mem_movable (t := ⟨l, p⟩) held) sum
  rw [Parameters.get?_adjust, if_neg other]

/-! ### Any calls -/

/-- What a learner can be asked for: to give the features of an example their first weights, to train on an
example, to end an epoch, and to add up the slopes of an example. The vectors of parameters are told by
their numbers. -/
inductive LearnerCall where
  | introduce (vector : Nat) (e : TrainingExample)
  | train (vector : Nat) (e : TrainingExample) (epoch : Nat)
  | endEpoch (vector : Nat) (epoch : Nat)
  | addGradient (vector sum : Nat) (e : TrainingExample)

/-- A call gives a feature of a vector its first weight, unless it has one. -/
def LearnerCall.Introduces (vector : Nat) (feature : String) : LearnerCall → Prop
  | .introduce v e => v = vector ∧ feature ∈ e.graph.features
  | .train .. | .endEpoch .. | .addGradient .. => False

instance (vector : Nat) (feature : String) : DecidablePred (LearnerCall.Introduces vector feature)
  | .introduce v e => inferInstanceAs (Decidable (v = vector ∧ feature ∈ e.graph.features))
  | .train .. | .endEpoch .. | .addGradient .. => inferInstanceAs (Decidable False)

/-- A learner, and the vectors of parameters that it works on. -/
structure Workbench (K : Type) where
  learner : Learner K
  vectors : Nat → Parameters K

namespace Workbench

variable {K : Type} [Scalar K] {f : String}

/-- The learner beside one of the vectors. -/
def training (b : Workbench K) (vector : Nat) : Training K := ⟨b.learner, b.vectors vector⟩

/-- The workbench after a training has changed one of the vectors. -/
def put (b : Workbench K) (vector : Nat) (t : Training K) : Workbench K :=
  { learner := t.learner, vectors := Function.update b.vectors vector t.parameters }

/-- What a call leaves. One that fails leaves what it has done so far. -/
def call (b : Workbench K) : LearnerCall → Workbench K
  | .introduce vector e => b.put vector ((b.training vector).introduce e.graph)
  | .train vector e epoch => b.put vector ((b.training vector).step e epoch).2
  | .endEpoch vector epoch => b.put vector ((b.training vector).endEpoch epoch).2
  | .addGradient vector sum e =>
    match b.learner.addGradient (b.vectors vector) e (b.vectors sum) with
    | .error _ => b
    | .ok (_, summed) => b.put sum ⟨b.learner, summed⟩

/-- What calls leave, one after the other. -/
def run (b : Workbench K) (calls : List LearnerCall) : Workbench K := calls.foldl call b

omit [Scalar K] in
theorem get?_put (b : Workbench K) (vector v : Nat) (t : Training K) :
    ((b.put vector t).vectors v).get? f =
      if v = vector then t.parameters.get? f else (b.vectors v).get? f := by
  simp only [put, Function.update_apply]
  split <;> rfl

omit [Scalar K] in
/-- A vector that is written back with the weight of a feature that it had. -/
theorem get?_put_of_eq {b : Workbench K} {vector : Nat} {t : Training K}
    (same : t.parameters.get? f = (b.vectors vector).get? f) (v : Nat) :
    ((b.put vector t).vectors v).get? f = (b.vectors v).get? f := by
  rw [get?_put]
  split
  next here => rw [here, same]
  next => rfl

theorem fixed_call (b : Workbench K) (c : LearnerCall) :
    (b.call c).learner.core.fixed = b.learner.core.fixed := by
  cases c with
  | introduce vector e => exact LearnerCore.fixed_introduce ..
  | train vector e epoch => exact Training.fixed_step ..
  | endEpoch vector epoch => rfl
  | addGradient vector sum e =>
    rw [call]
    split <;> rfl

/-- A call leaves a fixed weight as it was, or gives the feature its first weight, one. -/
theorem get?_call {b : Workbench K} (held : b.learner.core.fixed.isFixed f = true) (c : LearnerCall)
    (v : Nat) :
    ((b.call c).vectors v).get? f =
      if c.Introduces v f then some (((b.vectors v).get? f).getD 1) else (b.vectors v).get? f := by
  cases c with
  | introduce vector e =>
    rw [call, get?_put, Training.get?_introduce (t := b.training vector) held]
    by_cases here : v = vector
    · subst here
      simp [LearnerCall.Introduces, training]
    · simp [LearnerCall.Introduces, here, Ne.symm here]
  | train vector e epoch =>
    rw [call, get?_put_of_eq (Training.get?_step (t := b.training vector) held e epoch)]
    rfl
  | endEpoch vector epoch =>
    rw [call, get?_put_of_eq (Training.get?_endEpoch (t := b.training vector) held epoch)]
    rfl
  | addGradient vector sum e =>
    change _ = (b.vectors v).get? f
    rw [call]
    split
    next => rfl
    next added => exact get?_put_of_eq (Learner.get?_addGradient held added) v

/-- So do any calls. -/
theorem get?_run {b : Workbench K} (held : b.learner.core.fixed.isFixed f = true) (calls : List LearnerCall)
    (v : Nat) :
    ((b.run calls).vectors v).get? f =
      if ∃ c ∈ calls, c.Introduces v f then some (((b.vectors v).get? f).getD 1) else (b.vectors v).get? f := by
  induction calls generalizing b with
  | nil => simp [run]
  | cons c rest ih =>
    have heldStill : (b.call c).learner.core.fixed.isFixed f = true := by rwa [fixed_call]
    rw [run, List.foldl_cons]
    refine (ih heldStill).trans ?_
    rw [get?_call held]
    by_cases now : c.Introduces v f <;> by_cases later : ∃ c ∈ rest, c.Introduces v f <;>
      simp [now, later]

/-- Fixed weights never move, whatever the learner, its schedule and its regularizer are and whatever is
asked of it. A feature that the first rule about it fixes keeps the weight that it has. Without one it
has the weight one if it has been given its first weight, and else none: no training and no sum of slopes
brings it in. The reserved features are fixed by all rules. -/
theorem fixed_weights_stay (b : Workbench K) {spec : String}
    (parsed : b.learner.core.fixed = FixedWeights.parse spec) (calls : List LearnerCall) :
    (∀ f, (FixedWeights.parse spec).Fixes f → ∀ v,
      (∀ w, (b.vectors v).get? f = some w → ((b.run calls).vectors v).get? f = some w) ∧
      ((b.vectors v).get? f = none → (∃ c ∈ calls, c.Introduces v f) →
        ((b.run calls).vectors v).get? f = some 1) ∧
      ((b.vectors v).get? f = none → (¬∃ c ∈ calls, c.Introduces v f) →
        ((b.run calls).vectors v).get? f = none)) ∧
    ∀ f ∈ [restartFeature, loopFeature, startLoopFeature], (FixedWeights.parse spec).Fixes f := by
  refine ⟨fun f fixes v => ?_, FixedWeights.fixes_reserved spec⟩
  have held : b.learner.core.fixed.isFixed f = true := by
    rw [parsed]
    exact FixedWeights.fixes_iff.1 fixes
  have leaves := get?_run held calls v
  refine ⟨fun w present => ?_, fun absent introduced => ?_, fun absent never => ?_⟩
  · rw [leaves, present, Option.getD_some, ite_self]
  · rw [leaves, if_pos introduced, absent, Option.getD_none]
  · rw [leaves, if_neg never, absent]

/-- A learner that fixes the first feature of the forked graph and lets all other weights decay. One of its
vectors has a weight for that feature. -/
noncomputable def heldBench : Workbench ℝ where
  learner := ⟨.rounds, { Training.plainCore with
    schedule := .new (.l2 1) false, fixed := .parse "f:*=n" }⟩
  vectors := Function.update (fun _ => .empty) 0 (.set .empty "f" (-1))

/-- The negative weight stays, in a vector without it it becomes one, and the sum of slopes does not hold it. -/
theorem fixed_weights_stay_forked :
    heldBench.learner.core.fixed = FixedWeights.parse "f:*=n" ∧
      let left := heldBench.run [.introduce 1 .forked, .train 0 .forked 1, .train 1 .forked 1,
        .endEpoch 1 1, .addGradient 1 2 .forked]
      (left.vectors 0).get? "f" = some (-1) ∧ (left.vectors 1).get? "f" = some 1 ∧
        (left.vectors 2).get? "f" = none := by
  refine ⟨rfl, ?_⟩
  have fixes : (FixedWeights.parse "f:*=n").Fixes "f" := FixedWeights.fixes_iff.2 (by decide)
  have parsed : heldBench.learner.core.fixed = FixedWeights.parse "f:*=n" := rfl
  obtain ⟨stays, -⟩ := fixed_weights_stay heldBench parsed
    [.introduce 1 .forked, .train 0 .forked 1, .train 1 .forked 1, .endEpoch 1 1, .addGradient 1 2 .forked]
  refine ⟨(stays "f" fixes 0).1 (-1) ?_, (stays "f" fixes 1).2.1 ?_ ?_, (stays "f" fixes 2).2.2 ?_ ?_⟩
  · simp [heldBench]
  · simp [heldBench]
  · exact ⟨.introduce 1 .forked, by simp, rfl, by simp [TrainingExample.forked]⟩
  · simp [heldBench]
  · simp [LearnerCall.Introduces]

end Workbench

/-! ### Runs over files -/

/-- A run over a file leaves a fixed weight as it was, whether or not it succeeds. -/
theorem Trainer.train_keeps_fixed {m : Type → Type} [Monad m] [LawfulMonad m] [Files m] [Clock m]
    {K : Type} [Scalar K] (r : Trainer K) {f : String} (held : r.learner.core.fixed.isFixed f = true)
    {p : Parameters K} {w : K} (present : p.get? f = some w) (grounded : String) :
    Alongside (fun a b => a = b ∧ b.2.get? f = some w) (train (m := m) r grounded p)
      (train r grounded p) := by
  have keeps : Keeps (fun _ => True) fun _ (t t' : Training K) =>
      t = t' ∧ t.learner.core.fixed.isFixed f = true ∧ t.parameters.get? f = some w := by
    refine ⟨fun _ _ _ same => same, ?_, ?_⟩
    · rintro - t _ e number - ⟨rfl, held, present⟩
      have heldStill : (t.introduce e.graph).learner.core.fixed.isFixed f = true := by
        rwa [Training.introduce, LearnerCore.fixed_introduce]
      refine ⟨rfl, rfl, by rwa [Training.fixed_step], ?_⟩
      rw [Training.get?_step heldStill, Training.get?_introduce held, present, Option.getD_some,
        ite_self]
    · rintro - t _ number ⟨rfl, held, present⟩
      exact ⟨rfl, rfl, held, (Training.get?_endEpoch held number).trans present⟩
  refine (keeps.train (fun _ => trivial) r grounded fun _ => ⟨rfl, held, present⟩).mono ?_
  rintro ⟨report, left⟩ ⟨_, _⟩ ⟨rfl, _, _, same, -, stays⟩
  cases same
  exact ⟨rfl, stays⟩

end ProofWalk
