import ProofWalk.Proofs.Learning.Schedules

/-!
# Examples that fail

An example whose edges have no probabilities fails, and training goes on without it. By then the clock has
gone on. The synchronous schedule never reads the clock: its weights are those of a run without the examples
that fail. Under the lazy schedule every weight that training may move owes a step for each of them, and
takes it at the end of the epoch. So the weights are those of a synchronous run that lets weights decay in
place of an example that fails.

## Main definitions

* `Training.usable` — the examples that do not fail when their turn comes
* `Training.spend`, `Training.spendAll` — training that lets weights decay where an example fails

## Main results

* `Training.exists_trainAll_usable` — under the synchronous schedule failed examples leave no trace
* `Trainer.parameters_epoch_usable` — so does an epoch of the trainer
* `Training.endEpoch_attemptAll_lazy` — under the lazy schedule each costs a step of decay
* `Training.get?_endEpoch_of_usable_eq_nil` — what is left if all examples fail
-/

namespace ProofWalk

open Schedule

namespace LearnerCore

variable {K : Type} [Scalar K]

/-- Features that all have weights change nothing when they are introduced. -/
theorem introduce_of_isSome (c : LearnerCore K) {p : Parameters K} {g : LearningGraph}
    (known : ∀ f ∈ g.features, (p.get? f).isSome) : c.introduce p g = (c, p) := by
  rw [introduce, ← Array.foldl_toList]
  have known : ∀ f ∈ g.features.toList, (p.get? f).isSome := fun f member => known f (by simpa using member)
  generalize g.features.toList = names at known
  induction names with
  | nil => rfl
  | cons first rest ih =>
    have one := c.introduceFeature_of_isSome (known first List.mem_cons_self)
    rw [List.foldl_cons]
    dsimp only
    rw [one]
    exact ih fun f member => known f (List.mem_cons_of_mem _ member)

end LearnerCore

namespace Training

section

variable {K : Type} {t t' : Training K} {e : TrainingExample} {examples : List TrainingExample}
  (epoch : Nat)

/-- All features of some examples have weights. -/
def Knows (t : Training K) (examples : List TrainingExample) : Prop :=
  ∀ e ∈ examples, ∀ f ∈ e.graph.features, (t.parameters.get? f).isSome

theorem Knows.rest (known : t.Knows (e :: examples)) : t.Knows examples :=
  fun other member => known other (List.mem_cons_of_mem _ member)

theorem Knows.congr (known : t.Knows examples)
    (same : ∀ f, (t'.parameters.get? f).isSome = (t.parameters.get? f).isSome) : t'.Knows examples := by
  intro e member f feature
  rw [same]
  exact known e member f feature

/-- Two trainings differ by what their clocks show. -/
inductive SaveClock (t : Training K) : Training K → Prop
  | of (clock : Nat) : SaveClock t ⟨t.learner.withSchedule { t.learner.core.schedule with clock }, t.parameters⟩

namespace SaveClock

protected theorem refl : SaveClock t t := .of t.learner.core.schedule.clock

theorem parameters (same : SaveClock t t') : t'.parameters = t.parameters := by
  obtain ⟨clock⟩ := same
  rfl

theorem isLazy (same : SaveClock t t') :
    t'.learner.core.schedule.isLazy = t.learner.core.schedule.isLazy := by
  obtain ⟨clock⟩ := same
  rfl

end SaveClock

variable [Scalar K]

theorem introduce_of_knows (known : t.Knows (e :: examples)) : t.introduce e.graph = t := by
  rw [introduce, LearnerCore.introduce_of_isSome _ (known e List.mem_cons_self)]

/-- The examples that do not fail when their turn comes. -/
def usable (epoch : Nat) (t : Training K) : List TrainingExample → List TrainingExample
  | [] => []
  | e :: rest =>
    if (t.train epoch e).isOk then e :: usable epoch (t.attempt epoch e) rest
    else usable epoch (t.attempt epoch e) rest

/-! ### The synchronous schedule -/

/-- A step along a slope brings in no feature that has no weight. -/
theorem isSome_descend (rate : K) (e : TrainingExample) (v : LossValue K) {features : List (Nat × String)}
    {p : Parameters K} (known : ∀ x ∈ features, (p.get? x.2).isSome) (f : String) :
    ((descend rate e v features p).get? f).isSome = (p.get? f).isSome := by
  induction features generalizing p with
  | nil => rfl
  | cons first rest ih =>
    have present := known first List.mem_cons_self
    have kept (delta : K) (g : String) : ((p.adjust first.2 delta).get? g).isSome = (p.get? g).isSome := by
      rw [Parameters.get?_adjust]
      split
      next own => rw [own, present, Option.isSome_some]
      next => rfl
    have others := fun x member => known x (List.mem_cons_of_mem _ member)
    simp only [descend, List.foldl_cons]
    split
    · exact (ih fun x member => (kept _ _).trans (others x member)).trans (kept _ f)
    · exact ih others

/-- Neither does the decay behind it. -/
theorem isSome_moved (synchronous : t.learner.core.schedule.isLazy = false) (known : t.Knows (e :: examples))
    (v : LossValue K) (f : String) : ((t.moved e epoch v).get? f).isSome = (t.parameters.get? f).isSome := by
  rw [moved_of_synchronous synchronous, overFeatures_parameters]
  have trained : ∀ x ∈ t.learner.core.trainable e.graph, (t.parameters.get? x.2).isSome := fun x member =>
    have movable : x.2 ∈ t.movable e := List.mem_map_of_mem member
    known e List.mem_cons_self _ (mem_movable.1 movable).1
  refine Eq.trans ?_ (isSome_descend (t.learner.core.rate epoch) e v trained f)
  generalize descend (t.learner.core.rate epoch) e v (t.learner.core.trainable e.graph) t.parameters = p
  generalize trainable t.learner.core.fixed p = names
  induction names generalizing p with
  | nil => rfl
  | cons first rest ih => exact (ih _).trans ((t.learner.core.schedule.regularizer.decay_steady ..).isSome f)

/-- Trying an example leaves a synchronous training that knows the same features. -/
theorem attempt_synchronous (synchronous : t.learner.core.schedule.isLazy = false)
    (known : t.Knows (e :: examples)) :
    (t.attempt epoch e).learner.core.schedule.isLazy = false ∧ (t.attempt epoch e).Knows examples := by
  rw [attempt_eq, introduce_of_knows known]
  refine ⟨synchronous, known.rest.congr fun f => ?_⟩
  cases t.ticked.lossOf (t.prepared e epoch) e with
  | error err => exact congrArg (fun p => (p.get? f).isSome) (prepared_of_synchronous synchronous e epoch)
  | ok v => exact isSome_moved epoch synchronous known v f

/-- What an example does under the synchronous schedule does not depend on the clock. An example that fails
moves the clock and nothing else. -/
theorem SaveClock.train (same : SaveClock t t') (synchronous : t.learner.core.schedule.isLazy = false)
    (known : t.Knows (e :: examples)) :
    Corresponds (fun a b => a.1 = b.1 ∧ SaveClock a.2 b.2) (t.train epoch e) (t'.train epoch e) ∧
      ((t.train epoch e).isOk = false → SaveClock (t.attempt epoch e) t') := by
  have synchronous' := same.isLazy.trans synchronous
  have known' : t'.Knows (e :: examples) := known.congr fun f => by rw [same.parameters]
  obtain ⟨clock⟩ := same
  generalize isOther : Training.mk (t.learner.withSchedule { t.learner.core.schedule with clock })
    t.parameters = t' at synchronous' known'
  have losses : t'.ticked.lossOf t'.parameters e = t.ticked.lossOf t.parameters e := by
    rw [← isOther]
    exact t.ticked.lossOf_congr { t.ticked.core.schedule with clock := clock + 1 } fun _ _ => rfl
  have moved (v : LossValue K) : t'.moved e epoch v = t.moved e epoch v := by
    rw [moved_of_synchronous synchronous', moved_of_synchronous synchronous, ← isOther]
    rfl
  rw [train_eq, train_eq, attempt_eq, introduce_of_knows known, introduce_of_knows known',
    prepared_of_synchronous synchronous', prepared_of_synchronous synchronous, losses]
  cases t.ticked.lossOf t.parameters e with
  | error err =>
    refine ⟨.error err, fun _ => ?_⟩
    rw [← isOther]
    exact .of clock
  | ok v =>
    refine ⟨.ok ⟨?_, ?_⟩, fun fails => by cases fails⟩
    · rw [← isOther]
    · dsimp only
      rw [moved, ← isOther]
      exact .of (clock + 1)

/-- An example whose edges have no probabilities fails. -/
theorem train_of_load (synchronous : t.learner.core.schedule.isLazy = false) (known : t.Knows [e])
    {err : Error} (load : Transitions.load t.learner.core.squash t.parameters e.graph = .error err) :
    t.train epoch e = .error err := by
  have loss : t.ticked.lossOf t.parameters e = .error err := by
    change Transitions.load t.learner.core.squash t.parameters e.graph >>= _ = _
    rw [load]
    rfl
  rw [train_eq, introduce_of_knows known, prepared_of_synchronous synchronous, loss]
  rfl

/-- Under the synchronous schedule the examples that do not fail can be trained on without the others, and
leave what all of them leave, but for the clock. -/
theorem exists_trainAll_usable (synchronous : t.learner.core.schedule.isLazy = false)
    (known : t.Knows examples) (same : SaveClock t t') :
    ∃ readings after, t'.trainAll epoch (t.usable epoch examples) = .ok (readings, after) ∧
      SaveClock (t.attemptAll epoch examples) after := by
  induction examples generalizing t t' with
  | nil => exact ⟨[], t', rfl, same⟩
  | cons e rest ih =>
    obtain ⟨trains, fails⟩ := same.train epoch synchronous known
    obtain ⟨stays, knows⟩ := attempt_synchronous epoch synchronous known
    rw [usable]
    cases tried : t.train epoch e with
    | error err =>
      rw [tried] at fails
      exact ih stays knows (fails rfl)
    | ok x =>
      obtain ⟨reading, after⟩ := x
      rw [tried] at trains
      cases trains' : t'.train epoch e with
      | error err =>
        rw [trains'] at trains
        cases trains
      | ok x' =>
        obtain ⟨reading', after'⟩ := x'
        rw [trains'] at trains
        obtain ⟨⟨-, same'⟩⟩ := trains
        rw [← attempt_of_train tried] at same'
        obtain ⟨readings, last, others, left⟩ := ih stays knows same'
        refine ⟨reading' :: readings, last, ?_, left⟩
        have succeeds : (Except.ok (reading, after) : Except Error (Reading K × Training K)).isOk = true := rfl
        rw [if_pos succeeds]
        simp only [trainAll, trains', others, bind, Except.bind, pure, Except.pure]

theorem attemptAll_synchronous (synchronous : t.learner.core.schedule.isLazy = false)
    (known : t.Knows examples) : (t.attemptAll epoch examples).learner.core.schedule.isLazy = false := by
  induction examples generalizing t with
  | nil => exact synchronous
  | cons e rest ih =>
    obtain ⟨stays, knows⟩ := attempt_synchronous epoch synchronous known
    exact ih stays knows

end

/-! ### The lazy schedule -/

section

variable {K : Type} [Scalar K]

/-- Lets the time of an example pass without one: the clock goes on, and the synchronous schedule lets all
weights decay by a step. -/
def idle (epoch : Nat) (t : Training K) : Training K where
  learner := t.ticked
  parameters := (t.ticked.core.schedule.apply t.learner.core.fixed t.ticked.core.schedule.clock
    (t.learner.core.rate epoch) t.parameters []).2

/-- Tries an example. If it fails, its time passes without one. -/
def spend (epoch : Nat) (t : Training K) (e : TrainingExample) : Training K :=
  if (t.train epoch e).isOk then t.attempt epoch e else (t.introduce e.graph).idle epoch

/-- Spends the time of examples one after the other. -/
def spendAll (epoch : Nat) (t : Training K) (examples : List TrainingExample) : Training K :=
  examples.foldl (spend epoch) t

end

variable {epoch : Nat} {examples : List TrainingExample}

/-- A step of decay for every weight that may move. -/
theorem get?_idle {t : Training ℝ} (synchronous : t.learner.core.schedule.isLazy = false)
    (plain : t.learner.core.schedule.regularizer.IsPlain) (f : String) :
    (t.idle epoch).parameters.get? f = (t.parameters.get? f).map
      (t.learner.core.schedule.regularizer.decayed (t.learner.core.rate epoch)
        (if t.learner.core.fixed.isFixed f then 0 else 1)) := by
  rw [idle, apply_of_synchronous (s := t.ticked.core.schedule) synchronous]
  exact get?_decayAll plain t.parameters f

namespace Lockstep

variable {late prompt : Training ℝ}

/-- Where no example is tried, every weight that may move takes a step of decay. -/
theorem get?_idle (same : Lockstep epoch late prompt) (f : String) :
    (prompt.idle epoch).parameters.get? f = (prompt.parameters.get? f).map
      (late.learner.core.schedule.regularizer.decayed (late.learner.core.rate epoch)
        (if late.learner.core.fixed.isFixed f then 0 else 1)) := by
  have plain : prompt.learner.core.schedule.regularizer.IsPlain := by
    rw [same.learner]
    exact same.plain
  rw [Training.get?_idle same.synchronous plain, same.learner]
  rfl

/-- An example that fails under both schedules has moved the clock, and a weight owes a step for it unless a
step is taken for it. -/
theorem idle (same : Lockstep epoch late prompt) (e : TrainingExample) :
    Lockstep epoch ⟨late.ticked, late.prepared e epoch⟩ (prompt.idle epoch) := by
  have owes := (same.prepared e).1
  rw [same.prepared_prompt] at owes
  refine ⟨same.plain, same.isLazy, ?_, owes.tick same.get?_idle⟩
  rw [Training.idle, ticked, same.learner]
  rfl

/-- Trying an example under the lazy schedule keeps step with spending its time under the synchronous one. -/
theorem spend (same : Lockstep epoch late prompt) (e : TrainingExample) :
    Lockstep epoch (late.attempt epoch e) (prompt.spend epoch e) := by
  obtain ⟨introduced, known⟩ := same.introduce e.graph
  rw [Training.spend, train_eq, attempt_eq, attempt_eq, introduced.lossOf_prepared]
  cases (late.introduce e.graph).ticked.lossOf ((late.introduce e.graph).prepared e epoch) e with
  | error err => exact introduced.idle e
  | ok v => exact introduced.moved e v known

theorem spendAll (same : Lockstep epoch late prompt) :
    Lockstep epoch (late.attemptAll epoch examples) (prompt.spendAll epoch examples) := by
  induction examples generalizing late prompt with
  | nil => exact same
  | cons e rest ih => exact ih (same.spend e)

/-- An example fails under both schedules or under none. -/
theorem isOk_train (same : Lockstep epoch late prompt) (e : TrainingExample) :
    (late.train epoch e).isOk = (prompt.train epoch e).isOk := by
  have trains := same.train e
  generalize late.train epoch e = x at trains ⊢
  generalize prompt.train epoch e = y at trains ⊢
  cases trains with
  | ok => rfl
  | error => rfl

/-- The time of an example that fails passes without one. -/
theorem spend_eq_idle (same : Lockstep epoch late prompt) {e : TrainingExample}
    (known : late.Knows (e :: examples)) (fails : (late.train epoch e).isOk = false) :
    prompt.spend epoch e = prompt.idle epoch := by
  rw [same.isOk_train] at fails
  have known' : prompt.Knows (e :: examples) := known.congr fun f => same.owes.isSome_eq
  rw [Training.spend, fails, introduce_of_knows known']
  rfl

/-- If all examples fail, what is left of the weights is what as many steps of decay leave. -/
theorem get?_spendAll (same : Lockstep epoch late prompt) (known : late.Knows examples)
    (unusable : late.usable epoch examples = []) (f : String) :
    (prompt.spendAll epoch examples).parameters.get? f = (prompt.parameters.get? f).map
      (late.learner.core.schedule.regularizer.decayed (late.learner.core.rate epoch)
        (if late.learner.core.fixed.isFixed f then 0 else examples.length)) := by
  induction examples generalizing late prompt with
  | nil =>
    rw [List.length_nil, ite_self, Regularizer.map_decayed_zero]
    rfl
  | cons e rest ih =>
    rw [usable] at unusable
    split at unusable
    · cases unusable
    next fails =>
      have idles := same.spend_eq_idle known (Bool.eq_false_iff.2 fails)
      have later := same.spend e
      have known' : (late.attempt epoch e).Knows rest := known.rest.congr fun g => by
        rw [← later.owes.isSome_eq, idles, same.get?_idle, Option.isSome_map, same.owes.isSome_eq]
      have learner : (late.attempt epoch e).learner = late.ticked := by
        rw [attempt_eq, introduce_of_knows known]
      have steps := ih later known' unusable
      rw [learner, idles, same.get?_idle, Option.map_map] at steps
      rw [Training.spendAll, List.foldl_cons, idles]
      refine steps.trans ?_
      congr 1
      funext w
      -- the steps of the other examples come on top of the one for this
      refine (Regularizer.decayed_add _ _ _ _ w).trans ?_
      rw [List.length_cons, Nat.add_comm rest.length]
      change Regularizer.decayed _ _ ((if late.learner.core.fixed.isFixed f then 0 else 1) +
        if late.learner.core.fixed.isFixed f then 0 else rest.length) w = _
      split <;> rfl

end Lockstep

/-- Two trainings from parameters whose clocks have not begun, one under each schedule, are in step. -/
theorem lockstep_start (kind : LearnerKind) (core : LearnerCore ℝ) {r : Regularizer ℝ} (plain : r.IsPlain)
    {p : Parameters ℝ} (untouched : ∀ f, p.touched f = 0) (epoch : Nat) :
    Lockstep epoch ⟨⟨kind, { core with schedule := .new r true }⟩, p⟩
      ⟨⟨kind, { core with schedule := .new r false }⟩, p⟩ where
  plain := plain
  isLazy := rfl
  learner := rfl
  owes := .of_even (fun _ => rfl) (fun f => owed_eq_zero (untouched f)) fun f => (untouched f).le

/-- Under the lazy schedule every example that fails costs a step of decay: the end of the epoch leaves the
weights of a synchronous run that lets them decay in its place. -/
theorem endEpoch_attemptAll_lazy (kind : LearnerKind) (core : LearnerCore ℝ) {r : Regularizer ℝ}
    (plain : r.IsPlain) {p : Parameters ℝ} (untouched : ∀ f, p.touched f = 0)
    (examples : List TrainingExample) (epoch : Nat) :
    (((Training.mk ⟨kind, { core with schedule := .new r true }⟩ p).attemptAll epoch examples).endEpoch
        epoch).2.parameters.get? =
      (((Training.mk ⟨kind, { core with schedule := .new r false }⟩ p).spendAll epoch examples).endEpoch
        epoch).2.parameters.get? :=
  ((lockstep_start kind core plain untouched epoch).spendAll.endEpoch epoch).1

/-- A lazy epoch all of whose examples fail leaves what as many steps of decay leave. -/
theorem get?_endEpoch_of_usable_eq_nil (kind : LearnerKind) (core : LearnerCore ℝ) {r : Regularizer ℝ}
    (plain : r.IsPlain) {p : Parameters ℝ} (untouched : ∀ f, p.touched f = 0)
    {examples : List TrainingExample} (known : ∀ e ∈ examples, ∀ f ∈ e.graph.features, (p.get? f).isSome)
    {epoch : Nat}
    (unusable : (Training.mk ⟨kind, { core with schedule := .new r true }⟩ p).usable epoch examples = [])
    (f : String) :
    (((Training.mk ⟨kind, { core with schedule := .new r true }⟩ p).attemptAll epoch examples).endEpoch
        epoch).2.parameters.get? f =
      (p.get? f).map (r.decayed (core.rate epoch) (if core.fixed.isFixed f then 0 else examples.length)) := by
  have start := lockstep_start kind core plain untouched epoch
  rw [endEpoch_attemptAll_lazy kind core plain untouched, parameters_endEpoch_of_synchronous start.spendAll.synchronous]
  exact start.get?_spendAll known unusable f

/-- A node with two edges, each with a feature of its own. -/
def cancelling : TrainingExample where
  query := "p(a)"
  graph :=
    { nodeCount := 2
      targets := #[2, 1]
      labelStarts := #[0, 1, 2]
      labelling := #[(0, 1), (1, 1)]
      starts := #[0, 0, 2, 2]
      features := #["f", "g"]
      dependencies := 0 }
  seed := [(1, 1)]
  pos := [2]
  neg := []

/-- Weights of the two features that add up to zero. -/
def opposite : Parameters ℝ := (Parameters.empty.insertIfAbsent "f" 1).insertIfAbsent "g" (-1)

/-- The edges of the node weigh something, but nothing together. -/
theorem load_cancelling : Transitions.load .linear opposite cancelling.graph = .error (.degenerateNode 1) := by
  have weights : (cancelling.graph.features.map fun name =>
      opposite.getD name (Squash.linear.default : ℝ)) = #[1, -1] := by
    simp [cancelling, opposite, Parameters.getD]
  have fails : Transitions.ofNode .linear #[(1 : ℝ), -1] cancelling.graph 1 = .error (.degenerateNode 1) := by
    have edges : cancelling.graph.edgesOf 1 = [0, 1] := rfl
    have first : cancelling.graph.labels 0 = [(0, 1)] := rfl
    have second : cancelling.graph.labels 1 = [(1, 1)] := rfl
    simp [Transitions.ofNode, Transitions.weigh, edges, first, second, Scalar.sum_real, Scalar.ofFloat_one,
      Squash.apply]
  rw [Transitions.load, weights]
  change (Transitions.ofNode .linear #[(1 : ℝ), -1] cancelling.graph 1 >>= _) >>= _ = _
  rw [fails]
  rfl

theorem knows_cancelling : ∀ e ∈ [cancelling], ∀ f ∈ e.graph.features, (opposite.get? f).isSome := by
  intro e member f feature
  rw [List.mem_singleton.1 member] at feature
  have named : f = "f" ∨ f = "g" := by simpa [cancelling] using feature
  rcases named with rfl | rfl <;> simp [opposite]

theorem usable_cancelling {core : LearnerCore ℝ} (linear : core.squash = .linear) :
    (Training.mk ⟨.rounds, { core with schedule := .new (.l2 1) true }⟩ opposite).usable 1 [cancelling] =
      [] := by
  have untouched (f : String) : opposite.touched f = 0 := by simp [opposite]
  have start := lockstep_start .rounds core (.l2 1) untouched 1
  have load : Transitions.load core.squash opposite cancelling.graph = .error (.degenerateNode 1) := by
    rw [linear, load_cancelling]
  rw [usable, start.isOk_train, train_of_load 1 start.synchronous knows_cancelling load, if_neg, usable]
  exact Bool.false_ne_true

/-- So an example that fails can leave other weights than no example: here one weight changes its sign. -/
theorem exists_endEpoch_lazy_ne :
    ∃ (core : LearnerCore ℝ) (p : Parameters ℝ) (e : TrainingExample), (∀ f, p.touched f = 0) ∧
      (Training.mk ⟨.rounds, { core with schedule := .new (.l2 1) true }⟩ p).usable 1 [e] = [] ∧
      (((Training.mk ⟨.rounds, { core with schedule := .new (.l2 1) true }⟩ p).attemptAll 1 [e]).endEpoch
          1).2.parameters.get? "f" ≠
        (((Training.mk ⟨.rounds, { core with schedule := .new (.l2 1) true }⟩ p).attemptAll 1 []).endEpoch
          1).2.parameters.get? "f" := by
  have untouched (f : String) : opposite.touched f = 0 := by simp [opposite]
  have weight : opposite.get? "f" = some 1 := by simp [opposite]
  obtain ⟨core, linear, rate, free⟩ : ∃ core : LearnerCore ℝ, core.squash = .linear ∧ core.rate 1 = 1 ∧
      core.fixed.isFixed "f" = false := by
    refine ⟨{ plainCore with squash := .linear }, rfl, ?_, ?_⟩
    · simp [LearnerCore.rate, plainCore, Scalar.ofNat_real]
    · exact (by decide : FixedWeights.standard.isFixed "f" = false)
  refine ⟨core, opposite, cancelling, untouched, usable_cancelling linear, ?_⟩
  rw [get?_endEpoch_of_usable_eq_nil _ _ (.l2 1) untouched knows_cancelling (usable_cancelling linear),
    get?_endEpoch_of_usable_eq_nil _ _ (.l2 1) untouched (by simp) (by rfl), weight, rate, free]
  simp [Regularizer.decayed, Scalar.power, Scalar.ofNat_real]

end Training

namespace Trainer

open Training

variable {K : Type} [Scalar K] [Clock Id] {index : Option FeatureTable} {lines lines' : List String}
  {examples : List TrainingExample} {t : Training K} {number : Nat}

/-- Under the synchronous schedule an epoch over lines leaves the weights of one over the lines whose examples
do not fail. -/
theorem parameters_epoch_usable (p : Pipeline) (synchronous : t.learner.core.schedule.isLazy = false)
    (known : t.Knows examples)
    (read : List.Forall₂ (fun line e => TrainingExample.parse? line index = .ok e) lines examples)
    (read' : List.Forall₂ (fun line e => TrainingExample.parse? line index = .ok e) lines'
      (t.usable number examples)) :
    (epoch (m := Id) p index lines number t).2.parameters =
      (epoch (m := Id) p index lines' number t).2.parameters := by
  obtain ⟨readings, after, trains, same⟩ :=
    exists_trainAll_usable number synchronous known .refl
  obtain ⟨r, leaves, -⟩ := epoch_attemptAll number (t := t) p read
  obtain ⟨report, leaves'⟩ := epoch_eq number p read' trains
  have stays := attemptAll_synchronous number synchronous known
  rw [leaves, leaves', parameters_endEpoch_of_synchronous (same.isLazy.trans stays), same.parameters]
  dsimp only
  split
  · exact parameters_endEpoch_of_synchronous stays number
  · rfl

end Trainer

end ProofWalk
