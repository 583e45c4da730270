import ProofWalk.Learning.Trainer
import ProofWalk.Proofs.Parameters
import ProofWalk.Proofs.Results

/-!
# Traces of training runs

What can be seen of a training run: the weights that every example reads when the probabilities of its
edges are computed, its loss, and the weights that every epoch leaves. An epoch of the trainer takes
these steps on the examples that its lines hold.

## Main definitions

* `Training.prepared`, `Training.moved` — the two parameters of a step, before and after it
* `Training.charged` — what the decay of a step is charged
* `Training.Reading`, `Training.EpochTrace`
* `Training.attempt`, `Training.attemptAll` — training that goes on where an example fails
* `Training.train`, `Training.trainAll`, `Training.run` — training that tells what can be seen

## Main results

* `Learner.lossOf_congr` — a loss depends on the weights of the example's features
* `Training.exists_run` — a run ends where every example can be loaded
* `Trainer.epoch_attemptAll` — an epoch of the trainer leaves what trying its examples leaves
* `Trainer.epoch_eq` — if none of them fails, this is what training on them leaves
-/

namespace ProofWalk

namespace Learner

variable {K : Type}

/-- A learner with another schedule. -/
def withSchedule (l : Learner K) (s : Schedule K) : Learner K :=
  { l with core := { l.core with schedule := s } }

/-- The loss of an example depends on the weights of its features only, and on no schedule. -/
theorem lossOf_congr [Scalar K] (l : Learner K) (s : Schedule K) {e : TrainingExample}
    {p p' : Parameters K} (same : ∀ f ∈ e.graph.features, p'.get? f = p.get? f) :
    (l.withSchedule s).lossOf p' e = l.lossOf p e := by
  have weights : (e.graph.features.map fun name => p'.getD name l.core.squash.default) =
      e.graph.features.map fun name => p.getD name l.core.squash.default :=
    Array.map_congr_left fun f member => by rw [Parameters.getD, same f member, Parameters.getD]
  have loaded : (l.withSchedule s).core.load p' e.graph = l.core.load p e.graph := by
    simp only [LearnerCore.load, Transitions.load, withSchedule]
    rw [weights]
  simp only [lossOf]
  rw [loaded]
  rfl

end Learner

namespace Training

variable {K : Type} [Scalar K]

/-- What can be seen of training on an example: the weights of its features when the probabilities of its
edges are computed, and its loss. -/
structure Reading (K : Type) where
  weights : List (Option K)
  logLoss : K

/-- What can be seen of an epoch: its readings, and the weights of all features that it leaves. -/
structure EpochTrace (K : Type) where
  readings : List (Reading K)
  left : String → Option K

/-- The learner when the clock has gone on. -/
def ticked (t : Training K) : Learner K :=
  { t.learner with core := { t.learner.core with schedule := t.learner.core.schedule.tick } }

/-- The names of the features of an example that training may move. -/
def movable (t : Training K) (e : TrainingExample) : List String :=
  (t.learner.core.trainable e.graph).map (·.2)

omit [Scalar K] in
theorem mem_movable {t : Training K} {e : TrainingExample} {f : String} :
    f ∈ t.movable e ↔ f ∈ e.graph.features ∧ t.learner.core.fixed.isFixed f = false := by
  have names : (e.graph.numberedFeatures.map (·.2)) = e.graph.features.toList :=
    List.map_snd_zip (by simp)
  have movable : t.movable e =
      e.graph.features.toList.filter fun f => !t.learner.core.fixed.isFixed f := by
    rw [← names, List.filter_map]
    rfl
  simp [movable]

/-- The parameters that the probabilities of an example's edges are computed with. -/
def prepared (t : Training K) (e : TrainingExample) (epoch : Nat) : Parameters K :=
  (t.ticked.core.schedule.prepare t.ticked.core.schedule.clock (t.learner.core.rate epoch)
    t.parameters (t.movable e)).2

/-- The synchronous schedule has nothing to settle before an example. -/
theorem prepared_of_synchronous {t : Training K} (synchronous : t.learner.core.schedule.isLazy = false)
    (e : TrainingExample) (epoch : Nat) : t.prepared e epoch = t.parameters := by
  rw [prepared, Schedule.prepare, if_neg]
  rw [ticked, Schedule.tick, synchronous]
  exact Bool.false_ne_true

/-- The parameters after the step along the slope of a loss and the decay that follows it. -/
def moved (t : Training K) (e : TrainingExample) (epoch : Nat) (v : LossValue K) : Parameters K :=
  (t.ticked.core.schedule.apply t.learner.core.fixed t.ticked.core.schedule.clock
    (t.learner.core.rate epoch)
    (descend (t.learner.core.rate epoch) e v (t.learner.core.trainable e.graph) (t.prepared e epoch))
    (t.movable e)).2

/-- The synchronous schedule lets all weights decay by a step, whatever the clock shows and whatever has been
trained. -/
theorem apply_of_synchronous {s : Schedule K} (synchronous : s.isLazy = false) (fixed : FixedWeights)
    (clock : Nat) (rate : K) (p : Parameters K) (features : List String) :
    s.apply fixed clock rate p features =
      Schedule.overFeatures (fun p f => s.regularizer.decay p f 1 rate) p (Schedule.trainable fixed p) := by
  rw [Schedule.apply, synchronous, if_neg Bool.false_ne_true]

theorem moved_of_synchronous {t : Training K} (synchronous : t.learner.core.schedule.isLazy = false)
    (e : TrainingExample) (epoch : Nat) (v : LossValue K) :
    t.moved e epoch v =
      (Schedule.overFeatures (fun p f => t.learner.core.schedule.regularizer.decay p f 1
        (t.learner.core.rate epoch)) (descend (t.learner.core.rate epoch) e v
          (t.learner.core.trainable e.graph) t.parameters)
        (Schedule.trainable t.learner.core.fixed (descend (t.learner.core.rate epoch) e v
          (t.learner.core.trainable e.graph) t.parameters))).2 := by
  rw [moved, prepared_of_synchronous synchronous,
    apply_of_synchronous (s := t.ticked.core.schedule) synchronous]
  rfl

/-- It has nothing to settle at the end of an epoch. -/
theorem parameters_endEpoch_of_synchronous {t : Training K}
    (synchronous : t.learner.core.schedule.isLazy = false) (epoch : Nat) :
    (t.endEpoch epoch).2.parameters = t.parameters := by
  simp only [endEpoch]
  rw [Schedule.cleanUp, synchronous, if_neg Bool.false_ne_true]

/-- What the decay before and after the step along the slope of a loss is charged. -/
def charged (t : Training K) (e : TrainingExample) (epoch : Nat) (v : LossValue K) : K :=
  (t.ticked.core.schedule.prepare t.ticked.core.schedule.clock (t.learner.core.rate epoch)
      t.parameters (t.movable e)).1 +
    (t.ticked.core.schedule.apply t.learner.core.fixed t.ticked.core.schedule.clock
      (t.learner.core.rate epoch)
      (descend (t.learner.core.rate epoch) e v (t.learner.core.trainable e.graph) (t.prepared e epoch))
      (t.movable e)).1

/-- A step computes the loss from the prepared parameters. -/
theorem step_eq (t : Training K) (e : TrainingExample) (epoch : Nat) :
    t.step e epoch =
      match t.ticked.lossOf (t.prepared e epoch) e with
      | .error err => (.error err, ⟨t.ticked, t.prepared e epoch⟩)
      | .ok v => (.ok (Learner.result e v (t.charged e epoch v)), ⟨t.ticked, t.moved e epoch v⟩) :=
  rfl

/-- Trains on an example of an epoch, as the trainer does. Gives what can be seen. -/
def train (epoch : Nat) (t : Training K) (e : TrainingExample) :
    Except Error (Reading K × Training K) :=
  let t := t.introduce e.graph
  match t.step e epoch with
  | (.error err, _) => .error err
  | (.ok x, after) =>
    .ok ({ weights := e.graph.features.toList.map (t.prepared e epoch).get?, logLoss := x.logLoss },
      after)

/-- What training on an example shows, and what it leaves. -/
theorem train_eq (t : Training K) (e : TrainingExample) (epoch : Nat) :
    t.train epoch e =
      ((t.introduce e.graph).ticked.lossOf ((t.introduce e.graph).prepared e epoch) e).map fun v =>
        ({ weights := e.graph.features.toList.map ((t.introduce e.graph).prepared e epoch).get?
           logLoss := v.loss },
         ⟨(t.introduce e.graph).ticked, (t.introduce e.graph).moved e epoch v⟩) := by
  simp only [train, step_eq]
  cases (t.introduce e.graph).ticked.lossOf ((t.introduce e.graph).prepared e epoch) e <;> rfl

/-- Tries an example of an epoch, as the trainer does: training goes on from what is left also where the
example fails. -/
def attempt (epoch : Nat) (t : Training K) (e : TrainingExample) : Training K :=
  ((t.introduce e.graph).step e epoch).2

/-- Tries examples one after the other. -/
def attemptAll (epoch : Nat) (t : Training K) (examples : List TrainingExample) : Training K :=
  examples.foldl (attempt epoch) t

/-- Training on an example leaves what trying it leaves. -/
theorem attempt_of_train {t t' : Training K} {e : TrainingExample} {epoch : Nat} {reading : Reading K}
    (trains : t.train epoch e = .ok (reading, t')) : t.attempt epoch e = t' := by
  simp only [train] at trains
  split at trains
  next => cases trains
  next x after stepped =>
    cases trains
    rw [attempt, stepped]

/-- What trying an example leaves. The example may have failed: then the clock has gone on, and what it was
about to read is settled. -/
theorem attempt_eq (t : Training K) (e : TrainingExample) (epoch : Nat) :
    t.attempt epoch e = ⟨(t.introduce e.graph).ticked,
      match (t.introduce e.graph).ticked.lossOf ((t.introduce e.graph).prepared e epoch) e with
      | .error _ => (t.introduce e.graph).prepared e epoch
      | .ok v => (t.introduce e.graph).moved e epoch v⟩ := by
  rw [attempt, step_eq]
  cases (t.introduce e.graph).ticked.lossOf ((t.introduce e.graph).prepared e epoch) e <;> rfl

/-- Trains on examples up to the first that fails. -/
def trainAll (epoch : Nat) (t : Training K) :
    List TrainingExample → Except Error (List (Reading K) × Training K)
  | [] => .ok ([], t)
  | e :: rest => do
    let (reading, t) ← t.train epoch e
    let (readings, t) ← t.trainAll epoch rest
    return (reading :: readings, t)

/-- Training on examples that do not fail leaves what trying them leaves. -/
theorem attemptAll_of_trainAll {t t' : Training K} {examples : List TrainingExample} {epoch : Nat}
    {readings : List (Reading K)}
    (trains : t.trainAll epoch examples = .ok (readings, t')) : t.attemptAll epoch examples = t' := by
  induction examples generalizing t readings with
  | nil =>
    cases trains
    rfl
  | cons e rest ih =>
    obtain ⟨⟨reading, after⟩, one, behind⟩ := Except.bind_eq_ok.1 trains
    obtain ⟨⟨readings', last⟩, others, done⟩ := Except.bind_eq_ok.1 behind
    cases done
    rw [← attempt_of_train one] at others
    exact ih others

/-- Trains for epochs with the given examples, of which the first has a given number. -/
def run (epoch : Nat) (t : Training K) :
    List (List TrainingExample) → Except Error (List (EpochTrace K))
  | [] => .ok []
  | examples :: rest => do
    let (readings, t) ← t.trainAll epoch examples
    let (_, t) := t.endEpoch epoch
    let traces ← t.run (epoch + 1) rest
    return { readings, left := t.parameters.get? } :: traces

/-! ### Runs that end -/

/-- When a feature gets its first weight, only the stream of noise goes on. -/
theorem exists_noise_introduceFeature (c : LearnerCore K) (p : Parameters K) (f : String) :
    ∃ noise, (c.introduceFeature p f).1 = { c with noise } := by
  by_cases known : p.contains f = true
  · exact ⟨c.noise, by rw [LearnerCore.introduceFeature, if_pos known]⟩
  · by_cases held : c.fixed.isFixed f = true
    · exact ⟨c.noise, by rw [LearnerCore.introduceFeature, if_neg known, if_pos held]⟩
    · exact ⟨LearnerCore.nextNoise c.noise, by
        rw [LearnerCore.introduceFeature, if_neg known, if_neg held]⟩

theorem exists_noise_introduce (c : LearnerCore K) (p : Parameters K) (g : LearningGraph) :
    ∃ noise, (c.introduce p g).1 = { c with noise } := by
  rw [LearnerCore.introduce, ← Array.foldl_toList]
  generalize g.features.toList = names
  induction names generalizing c p with
  | nil => exact ⟨c.noise, rfl⟩
  | cons first rest ih =>
    obtain ⟨noise, one⟩ := exists_noise_introduceFeature c p first
    obtain ⟨noise', others⟩ := ih (c.introduceFeature p first).1 (c.introduceFeature p first).2
    refine ⟨noise', ?_⟩
    rw [List.foldl_cons]
    exact others.trans (by rw [one])

/-- The learner that walks by rounds trains on every example that can be loaded. -/
theorem exists_train {t : Training K} (byRounds : t.learner.kind = .rounds) {e : TrainingExample}
    (loads : ∀ p : Parameters K, ∃ s, Transitions.load t.learner.core.squash p e.graph = .ok s)
    (epoch : Nat) :
    ∃ reading after, t.train epoch e = .ok (reading, after) ∧
      after.learner.kind = .rounds ∧ after.learner.core.squash = t.learner.core.squash := by
  have squash : (t.introduce e.graph).ticked.core.squash = t.learner.core.squash := by
    obtain ⟨noise, same⟩ := exists_noise_introduce t.learner.core t.parameters e.graph
    exact (congrArg LearnerCore.squash same :)
  have kind : (t.introduce e.graph).ticked.kind = .rounds := byRounds
  obtain ⟨s, loaded⟩ := loads ((t.introduce e.graph).prepared e epoch)
  have loses : ∃ v, (t.introduce e.graph).ticked.lossOf ((t.introduce e.graph).prepared e epoch) e =
      .ok v := by
    rw [← squash] at loaded
    simp only [Learner.lossOf, LearnerCore.load, loaded, Learner.walk, kind, bind, Except.bind, pure,
      Except.pure]
    exact ⟨_, rfl⟩
  obtain ⟨v, loss⟩ := loses
  rw [train_eq, loss]
  exact ⟨_, _, rfl, kind, squash⟩

theorem exists_trainAll {t : Training K} (byRounds : t.learner.kind = .rounds)
    {examples : List TrainingExample} (loads : ∀ e ∈ examples, ∀ p : Parameters K, ∃ s,
      Transitions.load t.learner.core.squash p e.graph = .ok s) (epoch : Nat) :
    ∃ readings after, t.trainAll epoch examples = .ok (readings, after) ∧
      after.learner.kind = .rounds ∧ after.learner.core.squash = t.learner.core.squash := by
  induction examples generalizing t with
  | nil => exact ⟨[], t, rfl, byRounds, rfl⟩
  | cons e rest ih =>
    obtain ⟨reading, after, trains, kind, squash⟩ :=
      exists_train byRounds (loads e List.mem_cons_self) epoch
    obtain ⟨readings, after', trains', kind', squash'⟩ := ih kind fun e' member => by
      rw [squash]
      exact loads e' (List.mem_cons_of_mem _ member)
    refine ⟨reading :: readings, after', ?_, kind', squash'.trans squash⟩
    simp only [trainAll, trains, trains', bind, Except.bind, pure, Except.pure]

/-- A run of the learner that walks by rounds goes through all its epochs if every example can be
loaded. -/
theorem exists_run {t : Training K} (byRounds : t.learner.kind = .rounds)
    {epochs : List (List TrainingExample)}
    (loads : ∀ examples ∈ epochs, ∀ e ∈ examples, ∀ p : Parameters K, ∃ s,
      Transitions.load t.learner.core.squash p e.graph = .ok s) (epoch : Nat) :
    ∃ traces, t.run epoch epochs = .ok traces ∧ traces.length = epochs.length := by
  induction epochs generalizing t epoch with
  | nil => exact ⟨[], rfl, rfl⟩
  | cons examples rest ih =>
    obtain ⟨readings, after, trains, kind, squash⟩ :=
      exists_trainAll byRounds (loads examples List.mem_cons_self) epoch
    obtain ⟨traces, runs, length⟩ := ih (t := (after.endEpoch epoch).2) kind
      (fun others member e isOther => by
        have same : (after.endEpoch epoch).2.learner.core.squash = t.learner.core.squash := squash
        rw [same]
        exact loads others (List.mem_cons_of_mem _ member) e isOther) (epoch + 1)
    refine ⟨{ readings, left := (after.endEpoch epoch).2.parameters.get? } :: traces, ?_,
      by rw [List.length_cons, length, List.length_cons]⟩
    simp only [run, trains, bind, Except.bind, pure, Except.pure, runs]

end Training

/-! ### Epochs of the trainer -/

namespace Delivery

variable {O σ : Type} {sink : Sink O σ}

theorem failure_emit (takes : ∀ task o s, ∃ s', sink task o s = (.ok (), s')) (d : Delivery O σ)
    (task : Nat) (out : Outcome O) : (d.emit sink task out).failure = d.failure := by
  cases out with
  | skipped | failed => rfl
  | output o =>
    obtain ⟨s', taken⟩ := takes task o d.sink
    simp only [emit, taken]
    split <;> rfl

theorem failure_release (takes : ∀ task o s, ∃ s', sink task o s = (.ok (), s')) (limit : Nat)
    (d : Delivery O σ) : (release sink limit d).failure = d.failure := by
  induction limit generalizing d with
  | zero => rfl
  | succ limit ih =>
    rw [release]
    split
    · rfl
    · rw [ih, failure_emit takes]

/-- A sink that takes everything never fails. -/
theorem failure_arrive (takes : ∀ task o s, ∃ s', sink task o s = (.ok (), s')) (inOrder : Bool)
    (d : Delivery O σ) (task : Nat) (out : Outcome O) :
    (d.arrive inOrder sink task out).failure = d.failure := by
  rw [arrive]
  split
  · rw [failure_release takes]
  · exact failure_emit takes d task out

end Delivery

namespace Trainer

variable {K : Type} [Scalar K] [Clock Id] {index : Option FeatureTable} {line : String}
  {lines : List String} {e : TrainingExample} {examples : List TrainingExample} {t t' : Training K}
  (number : Nat)

/-- The work on a line that holds an example. -/
theorem work_eq (read : TrainingExample.parse? line index = .ok e) (task : Nat) :
    ∃ r, work (m := Id) index number task line t = (r, t.attempt number e) ∧
      ∀ x, t.train number e = .ok x → ∃ o, r = .ok (some o) := by
  simp only [work, read]
  refine ⟨_, rfl, fun x trains => ?_⟩
  simp only [Training.train] at trains
  split at trains
  next => cases trains
  next result after stepped =>
    rw [stepped]
    exact ⟨_, rfl⟩

/-- How the report of an epoch takes in an example. -/
private def tally : Sink (ExampleResult K × Nat × Nat) (EpochReport K) :=
  fun _ (x, parseTime, trainTime) report => (.ok (), report.add x parseTime trainTime)

private theorem runFrom_cons (p : Pipeline) {task : Nat} {line : String}
    {d : Delivery (ExampleResult K × Nat × Nat) (EpochReport K)} {stop : Option Error}
    {r : Except Error (Option (ExampleResult K × Nat × Nat))}
    (works : work (m := Id) index number task line t = (r, t')) :
    p.runFrom (n := Id) (work index number) tally task t d stop (line :: lines) =
      match Pipeline.outcome r with
      | .ok out => p.runFrom (n := Id) (work index number) tally (task + 1) t'
          (d.submit.arrive p.keepOrder tally task out) stop lines
      | .error e => p.runFrom (n := Id) (work index number) tally (task + 1) t' d.submit (stop.or (some e))
          lines := by
  have pures : work (m := Id) index number task line t = pure (r, t') := works
  rw [Pipeline.runFrom, pures, pure_bind]
  dsimp only
  cases Pipeline.outcome r <;> rfl

private theorem runFrom_eq (p : Pipeline)
    (read : List.Forall₂ (fun line e => TrainingExample.parse? line index = .ok e) lines examples)
    (task : Nat) (d : Delivery (ExampleResult K × Nat × Nat) (EpochReport K)) (stop : Option Error) :
    ∃ stop' d', p.runFrom (n := Id) (work index number) tally task t d stop lines =
        (stop', t.attemptAll number examples, d') ∧ d'.failure = d.failure ∧
      ∀ x, t.trainAll number examples = .ok x → stop' = stop := by
  induction read generalizing t task d stop with
  | nil => exact ⟨stop, d, rfl, rfl, fun _ _ => rfl⟩
  | @cons line e lines examples first _ ih =>
    obtain ⟨r, works, succeeds⟩ := work_eq number (t := t) first task
    -- the task hands back an outcome, or it asks for the run to be stopped; the next one is run either way
    have goes : ∃ stop₁ d₁, p.runFrom (n := Id) (work index number) tally task t d stop (line :: lines) =
          p.runFrom (n := Id) (work index number) tally (task + 1) (t.attempt number e) d₁ stop₁ lines ∧
        d₁.failure = d.failure ∧ ∀ x, t.train number e = .ok x → stop₁ = stop := by
      rw [runFrom_cons number p works]
      cases handed : Pipeline.outcome r with
      | ok out =>
        exact ⟨stop, _, rfl, Delivery.failure_arrive (fun _ _ _ => ⟨_, rfl⟩) .., fun _ _ => rfl⟩
      | error err =>
        refine ⟨_, _, rfl, rfl, fun x trains => ?_⟩
        obtain ⟨o, rfl⟩ := succeeds x trains
        cases handed
    obtain ⟨stop₁, d₁, goesOn, same, kept⟩ := goes
    obtain ⟨stop', d', runs, same', kept'⟩ := ih (t := t.attempt number e) (task + 1) d₁ stop₁
    refine ⟨stop', d', goesOn.trans runs, same'.trans same, fun x trains => ?_⟩
    obtain ⟨⟨reading, after⟩, one, rest⟩ := Except.bind_eq_ok.1 trains
    obtain ⟨⟨readings, last⟩, others, -⟩ := Except.bind_eq_ok.1 rest
    rw [← Training.attempt_of_train one] at others
    rw [kept' _ others, kept _ one]

/-- An epoch of the trainer over lines that hold examples leaves what trying the examples leaves, and then
the end of the epoch, unless the program has been stopped. -/
theorem epoch_attemptAll (p : Pipeline)
    (read : List.Forall₂ (fun line e => TrainingExample.parse? line index = .ok e) lines examples) :
    ∃ r, epoch (m := Id) p index lines number t =
        (r, if r.isOk then ((t.attemptAll number examples).endEpoch number).2
          else t.attemptAll number examples) ∧
      ∀ x, t.trainAll number examples = .ok x → r.isOk = true := by
  obtain ⟨stop, d, runs, same, kept⟩ := runFrom_eq number (t := t) p read 1
    (.start (EpochReport.zero number)) none
  have finishes : p.run (n := Id) (work index number) tally t (EpochReport.zero number) lines =
      (stop.elim (.ok d.counts) .error, t.attemptAll number examples, d.sink) := by
    rw [Pipeline.run, runs]
    obtain ⟨counts, waiting, next, sink, failure⟩ := d
    change failure = none at same
    rw [same]
    cases stop <;> rfl
  have unfolded : epoch (m := Id) p index lines number t = ((Clock.milliseconds : Id Nat) >>= fun _ =>
      p.run (n := Id) (work index number) tally t (EpochReport.zero number) lines >>= _) := rfl
  rw [unfolded, finishes]
  cases stop with
  | none => exact ⟨_, rfl, fun _ _ => rfl⟩
  | some err => exact ⟨_, rfl, fun x trains => absurd (kept x trains) (by simp)⟩

/-- An epoch of the trainer over lines that hold examples leaves what training on the examples and the
end of the epoch leave. -/
theorem epoch_eq (p : Pipeline) {readings : List (Training.Reading K)}
    (read : List.Forall₂ (fun line e => TrainingExample.parse? line index = .ok e) lines examples)
    (trains : t.trainAll number examples = .ok (readings, t')) :
    ∃ report, epoch (m := Id) p index lines number t = (.ok report, (t'.endEpoch number).2) := by
  obtain ⟨r, leaves, succeeds⟩ := epoch_attemptAll number (t := t) p read
  have isOk := succeeds _ trains
  cases r with
  | error e => cases isOk
  | ok report =>
    refine ⟨report, ?_⟩
    rw [leaves, if_pos isOk, Training.attemptAll_of_trainAll trains]

end Trainer

end ProofWalk
