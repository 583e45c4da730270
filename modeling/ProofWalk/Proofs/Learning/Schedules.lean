import ProofWalk.Proofs.Learning.Decay
import ProofWalk.Proofs.Learning.Gradient
import ProofWalk.Proofs.Learning.Trace
import ProofWalk.Proofs.Results

/-!
# Lazy and synchronous decay

The lazy schedule puts decay off and settles it when a weight is read, when it has been trained and at
the end of an epoch. Over the real numbers nothing is lost or taken twice: every weight that an example
reads, every loss and all weights at the end of an epoch are those of the synchronous schedule. At all
other times the clock of a feature tells how many steps its weight still owes.

## Main definitions

* `Schedule.owed` — the steps that a weight owes
* `Schedule.Owes` — weights that owe steps, beside weights that have taken them
* `Training.Lockstep` — two trainings that differ by the schedule and by what is owed

## Main results

* `Training.Lockstep.train`, `Training.Lockstep.endEpoch` — one example and the end of an epoch
* `Training.run_lazy_eq_run_synchronous` — both schedules show the same
-/

namespace ProofWalk

namespace Schedule

/-- The steps that the lazy schedule has put off for the weight of a feature. -/
def owed {K : Type} (fixed : FixedWeights) (clock : Nat) (p : Parameters K) (f : String) : Nat :=
  if (p.get? f).isSome ∧ fixed.isFixed f = false then clock - p.touched f else 0

/-- The second parameters are the first with all steps taken that are still owed at a clock. -/
structure Owes (r : Regularizer ℝ) (fixed : FixedWeights) (rate : ℝ) (clock : Nat)
    (late prompt : Parameters ℝ) : Prop where
  weight : ∀ f, prompt.get? f = (late.get? f).map (r.decayed rate (owed fixed clock late f))
  within : ∀ f, late.touched f ≤ clock

section
variable {K : Type} {fixed : FixedWeights} {clock : Nat} {p p' : Parameters K} {f g : String}

theorem owed_congr (weight : (p'.get? f).isSome = (p.get? f).isSome)
    (touched : p'.touched f = p.touched f) : owed fixed clock p' f = owed fixed clock p f := by
  rw [owed, owed, weight, touched]

theorem owed_eq_zero (touched : p.touched f = clock) : owed fixed clock p f = 0 := by
  rw [owed, touched, Nat.sub_self, ite_self]

end

variable {s : Schedule ℝ} {fixed : FixedWeights} {rate : ℝ} {clock : Nat} {late prompt : Parameters ℝ}
  {f g : String}

theorem get?_settle (plain : s.regularizer.IsPlain) {at_ : Nat} :
    (s.settle at_ rate late f).2.get? g =
      if g = f then (late.get? f).map (s.regularizer.decayed rate (at_ - late.touched f))
      else late.get? g := by
  rw [settle, plain.get?_decay, Parameters.get?_touch, Parameters.get?_touch]

namespace Owes

variable {r : Regularizer ℝ}

/-- Where nothing is owed, the weights are the same. -/
theorem get?_eq (owes : Owes r fixed rate clock late prompt) (even : owed fixed clock late f = 0) :
    prompt.get? f = late.get? f := by
  rw [owes.weight f, even, Regularizer.map_decayed_zero]

theorem isSome_eq (owes : Owes r fixed rate clock late prompt) :
    (prompt.get? f).isSome = (late.get? f).isSome := by
  rw [owes.weight f, Option.isSome_map]

/-- Equal weights that owe nothing stand for each other, at whatever rate. -/
theorem of_even (same : ∀ f, prompt.get? f = late.get? f)
    (even : ∀ f, owed fixed clock late f = 0) (within : ∀ f, late.touched f ≤ clock) :
    Owes r fixed rate clock late prompt where
  weight f := by
    rw [same, even, Regularizer.map_decayed_zero]
  within := within

/-- Both weights of a feature may be changed alike if nothing is owed for it. -/
theorem replaced (owes : Owes r fixed rate clock late prompt) {late' prompt' : Parameters ℝ}
    (same : prompt'.get? f = late'.get? f) (even : owed fixed clock late' f = 0)
    (within : late'.touched f ≤ clock)
    (others : ∀ g, g ≠ f → prompt'.get? g = prompt.get? g ∧ late'.get? g = late.get? g ∧
      late'.touched g = late.touched g) : Owes r fixed rate clock late' prompt' where
  weight g := by
    by_cases own : g = f
    · subst own
      rw [same, even, Regularizer.map_decayed_zero]
    · obtain ⟨prompts, lates, clocks⟩ := others g own
      rw [prompts, owes.weight g, lates, owed_congr (by rw [lates]) clocks]
  within g := by
    by_cases own : g = f
    · rwa [own]
    · rw [(others g own).2.2]
      exact owes.within g

/-- Settling a trainable feature takes the steps that it owes. -/
theorem settle (owes : Owes s.regularizer fixed rate clock late prompt)
    (plain : s.regularizer.IsPlain) (free : fixed.isFixed f = false) :
    Owes s.regularizer fixed rate clock (s.settle clock rate late f).2 prompt ∧
      owed fixed clock (s.settle clock rate late f).2 f = 0 := by
  have even : owed fixed clock (s.settle clock rate late f).2 f = 0 := by
    rw [owed, isSome_settle, touched_settle]
    split
    next known =>
      rw [if_pos ⟨rfl, known.1⟩, max_eq_right (owes.within f), Nat.sub_self]
    next => rfl
  refine ⟨owes.replaced ?_ even ?_ fun g other => ⟨rfl, ?_, ?_⟩, even⟩
  · rw [get?_settle plain, if_pos rfl, owes.weight f]
    cases found : late.get? f with
    | none => rfl
    | some w =>
      have steps : owed fixed clock late f = clock - late.touched f := by
        rw [owed, found, if_pos ⟨rfl, free⟩]
      rw [steps]
  · rw [touched_settle]
    split
    · exact max_le (owes.within f) le_rfl
    · exact owes.within f
  · rw [get?_settle plain, if_neg other]
  · rw [touched_settle, if_neg fun both => other both.1]

/-- Settling trainable features leaves them even, and those that were. -/
theorem settleAll (plain : s.regularizer.IsPlain) {features : List String}
    (free : ∀ f ∈ features, fixed.isFixed f = false) {late : Parameters ℝ}
    (owes : Owes s.regularizer fixed rate clock late prompt) :
    Owes s.regularizer fixed rate clock (overFeatures (s.settle clock rate) late features).2 prompt ∧
      ∀ f, f ∈ features ∨ owed fixed clock late f = 0 →
        owed fixed clock (overFeatures (s.settle clock rate) late features).2 f = 0 := by
  rw [overFeatures_parameters]
  induction features generalizing late with
  | nil => exact ⟨owes, fun f even => even.resolve_left List.not_mem_nil⟩
  | cons first rest ih =>
    obtain ⟨settled, even⟩ := owes.settle plain (free first List.mem_cons_self)
    obtain ⟨kept, evens⟩ := ih (fun f member => free f (List.mem_cons_of_mem _ member)) settled
    refine ⟨kept, fun f due => evens f ?_⟩
    by_cases own : f = first
    · exact .inr (own ▸ even)
    · rcases due with member | before
      · exact .inl ((List.mem_cons.1 member).resolve_left own)
      · refine .inr ((owed_congr (isSome_settle) ?_).trans before)
        rw [touched_settle, if_neg fun both => own both.1]

/-- When the clock goes on and every trainable weight takes a step, those that do not take it owe it. -/
theorem tick (owes : Owes r fixed rate clock late prompt) {stepped : Parameters ℝ}
    (taken : ∀ f, stepped.get? f =
      (prompt.get? f).map (r.decayed rate (if fixed.isFixed f then 0 else 1))) :
    Owes r fixed rate (clock + 1) late stepped where
  weight f := by
    rw [taken, owes.weight, Option.map_map]
    cases found : late.get? f with
    | none => rfl
    | some w =>
      have later : owed fixed (clock + 1) late f =
          owed fixed clock late f + if fixed.isFixed f then 0 else 1 := by
        have within := owes.within f
        cases held : fixed.isFixed f
        · simp only [owed, found, held, Option.isSome_some, and_self, if_true, Bool.false_eq_true,
            if_false]
          omega
        · -- a fixed weight owes nothing and takes no step
          simp [owed, held]
      rw [later, Option.map_some, Option.map_some, Function.comp_apply, Regularizer.decayed_add]
  within f := (owes.within f).trans (Nat.le_succ _)

/-- A step along a slope moves weights that owe nothing alike. -/
theorem descend (e : TrainingExample) (v : LossValue ℝ) {features : List (Nat × String)}
    {late prompt : Parameters ℝ} (owes : Owes r fixed rate clock late prompt)
    (known : ∀ x ∈ features, (late.get? x.2).isSome ∧ owed fixed clock late x.2 = 0) :
    Owes r fixed rate clock (Training.descend rate e v features late)
      (Training.descend rate e v features prompt) := by
  induction features generalizing late prompt with
  | nil => exact owes
  | cons first rest ih =>
    obtain ⟨present, even⟩ := known first List.mem_cons_self
    have later := fun x member => known x (List.mem_cons_of_mem _ member)
    simp only [Training.descend, List.foldl_cons]
    split
    next =>
      have kept (g : String) (delta : ℝ) :
          ((late.adjust first.2 delta).get? g).isSome = (late.get? g).isSome := by
        rw [Parameters.get?_adjust]
        split
        next own => rw [own, present]; rfl
        next => rfl
      have owed_kept (g : String) (delta : ℝ) : owed fixed clock (late.adjust first.2 delta) g =
          owed fixed clock late g :=
        owed_congr (kept g delta) Parameters.touched_adjust
      refine ih (owes.replaced (f := first.2) ?_ ?_ ?_ fun g other => ⟨?_, ?_, ?_⟩) fun x member =>
        ⟨(kept x.2 _).trans (later x member).1, (owed_kept x.2 _).trans (later x member).2⟩
      · simp only [Parameters.get?_adjust, Parameters.getD, owes.get?_eq even]
      · exact (owed_kept _ _).trans even
      · rw [Parameters.touched_adjust]
        exact owes.within _
      · rw [Parameters.get?_adjust, if_neg other]
      · rw [Parameters.get?_adjust, if_neg other]
      · rw [Parameters.touched_adjust]
    next => exact ih owes later

end Owes

end Schedule

open Schedule

namespace LearnerCore

/-- A core with the synchronous schedule in place of the lazy one. -/
def synchronous {K : Type} (c : LearnerCore K) : LearnerCore K :=
  { c with schedule := { c.schedule with isLazy := false } }

/-- A new feature gets the same weight under both schedules, and owes nothing. -/
theorem exists_introduceFeature {K : Type} [Scalar K] (c : LearnerCore K) (f : String) :
    ∃ weight noise, ∀ p : Parameters K, p.get? f = none →
      c.introduceFeature p f =
          ({ c with noise }, (p.insertIfAbsent f weight).touch f c.schedule.clock) ∧
        c.synchronous.introduceFeature p f =
          ({ c.synchronous with noise }, (p.insertIfAbsent f weight).touch f c.schedule.clock) := by
  have absent {p : Parameters K} (unknown : p.get? f = none) : ¬ p.contains f = true := by
    rw [Parameters.contains_eq_isSome, unknown]
    exact Bool.false_ne_true
  by_cases held : c.fixed.isFixed f = true
  · refine ⟨1, c.noise, fun p unknown => ?_⟩
    rw [introduceFeature, introduceFeature, if_neg (absent unknown), if_neg (absent unknown),
      if_pos held, if_pos (show c.synchronous.fixed.isFixed f = true from held)]
    exact ⟨rfl, rfl⟩
  · refine ⟨c.squash.default + noiseScale * noiseOf (nextNoise c.noise), nextNoise c.noise,
      fun p unknown => ?_⟩
    rw [introduceFeature, introduceFeature, if_neg (absent unknown), if_neg (absent unknown),
      if_neg held, if_neg (show ¬ c.synchronous.fixed.isFixed f = true from held)]
    exact ⟨rfl, rfl⟩

theorem introduceFeature_of_isSome {K : Type} [Scalar K] (c : LearnerCore K) {p : Parameters K}
    {f : String} (known : (p.get? f).isSome) : c.introduceFeature p f = (c, p) := by
  rw [introduceFeature, if_pos (Parameters.contains_eq_isSome.trans known)]

variable {c : LearnerCore ℝ} {r : Regularizer ℝ} {rate : ℝ} {late prompt : Parameters ℝ}

/-- What becomes of a core and of two parameters when features get their first weights. -/
structure Introduced (c : LearnerCore ℝ) (r : Regularizer ℝ) (rate : ℝ) (names : List String)
    (late : Parameters ℝ) (a b : LearnerCore ℝ × Parameters ℝ) : Prop where
  core : a.1 = { c with noise := a.1.noise }
  synchronous : b.1 = a.1.synchronous
  owes : Owes r c.fixed rate c.schedule.clock a.2 b.2
  known : ∀ f, f ∈ names ∨ (late.get? f).isSome → (a.2.get? f).isSome

/-- Introducing one feature. -/
theorem introduced_one (owes : Owes r c.fixed rate c.schedule.clock late prompt) (f : String) :
    Introduced c r rate [f] late (c.introduceFeature late f)
      (c.synchronous.introduceFeature prompt f) := by
  cases found : late.get? f with
  | some w =>
    have known : (late.get? f).isSome := by rw [found]; rfl
    rw [introduceFeature_of_isSome c known,
      introduceFeature_of_isSome c.synchronous (owes.isSome_eq.trans known)]
    refine ⟨rfl, rfl, owes, fun g due => ?_⟩
    rcases due with member | before
    · rwa [List.mem_singleton.1 member]
    · exact before
  | none =>
    obtain ⟨weight, noise, introduced⟩ := c.exists_introduceFeature f
    have unknown : prompt.get? f = none := by
      rw [owes.weight f, found]
      rfl
    rw [(introduced late found).1, (introduced prompt unknown).2]
    have touched : ((late.insertIfAbsent f weight).touch f c.schedule.clock).touched f =
        c.schedule.clock := by
      rw [Parameters.touched_touch, if_pos ⟨rfl, by simp [found]⟩, Parameters.touched_insertIfAbsent,
        max_eq_right (owes.within f)]
    refine ⟨rfl, rfl, owes.replaced ?_ (owed_eq_zero touched) touched.le fun g other => ⟨?_, ?_, ?_⟩,
      fun g due => ?_⟩
    · simp [found, unknown]
    · simp [other]
    · simp [other]
    · rw [Parameters.touched_touch, if_neg fun both => other both.1,
        Parameters.touched_insertIfAbsent]
    · rw [Parameters.get?_touch, Parameters.get?_insertIfAbsent]
      split
      · rfl
      next other =>
        refine due.resolve_left fun member => other ⟨List.mem_singleton.1 member, found⟩

/-- Introducing features one after the other. -/
theorem introduced_list (names : List String) {c : LearnerCore ℝ} {late prompt : Parameters ℝ}
    (owes : Owes r c.fixed rate c.schedule.clock late prompt) :
    Introduced c r rate names late
      (names.foldl (fun (c, p) name => c.introduceFeature p name) (c, late))
      (names.foldl (fun (c, p) name => c.introduceFeature p name) (c.synchronous, prompt)) := by
  induction names generalizing c late prompt with
  | nil => exact ⟨rfl, rfl, owes, fun f due => due.resolve_left List.not_mem_nil⟩
  | cons first rest ih =>
    have one := introduced_one owes first
    simp only [List.foldl_cons]
    generalize c.introduceFeature late first = a at one ⊢
    generalize c.synchronous.introduceFeature prompt first = b at one ⊢
    obtain ⟨c', late'⟩ := a
    obtain ⟨d', prompt'⟩ := b
    obtain ⟨core, rfl, owes', known⟩ := one
    -- the core that goes on has other noise, but the same clock
    have alike : c'.fixed = c.fixed ∧ c'.schedule = c.schedule := by
      rw [show c' = _ from core]
      exact ⟨rfl, rfl⟩
    have owesLater : Owes r c'.fixed rate c'.schedule.clock late' prompt' := by
      rwa [alike.1, alike.2]
    have all := ih owesLater
    refine ⟨?_, all.synchronous, ?_, fun f due => all.known f ?_⟩
    · rw [all.core, show c' = _ from core]
    · rw [← alike.1, ← alike.2]
      exact all.owes
    · rcases due with member | before
      · rcases List.mem_cons.1 member with own | later
        · exact .inr (known f (.inl (List.mem_singleton.2 own)))
        · exact .inl later
      · exact .inr (known f (.inr before))

end LearnerCore

namespace Learner

/-- A learner with the synchronous schedule in place of the lazy one. -/
def synchronous {K : Type} (l : Learner K) : Learner K := { l with core := l.core.synchronous }

end Learner

namespace Training

/-- Two trainings at the same point of an epoch, one that puts decay off and one that does not: they
differ by the schedule, and by the steps that the weights of the first still owe. -/
structure Lockstep (epoch : Nat) (late prompt : Training ℝ) : Prop where
  plain : late.learner.core.schedule.regularizer.IsPlain
  isLazy : late.learner.core.schedule.isLazy = true
  learner : prompt.learner = late.learner.synchronous
  owes : Owes late.learner.core.schedule.regularizer late.learner.core.fixed
    (late.learner.core.rate epoch) late.learner.core.schedule.clock late.parameters prompt.parameters

namespace Lockstep

variable {epoch : Nat} {late prompt : Training ℝ}

/-- New features get the same weights under both schedules. -/
theorem introduce (same : Lockstep epoch late prompt) (g : LearningGraph) :
    Lockstep epoch (late.introduce g) (prompt.introduce g) ∧
      ∀ f ∈ g.features, ((late.introduce g).parameters.get? f).isSome := by
  obtain ⟨lateLearner, lates⟩ := late
  obtain ⟨promptLearner, prompts⟩ := prompt
  obtain ⟨plain, isLazy, rfl, owes⟩ := same
  have introduced := LearnerCore.introduced_list g.features.toList owes
  simp only [Array.foldl_toList] at introduced
  have core := introduced.core
  refine ⟨⟨?_, ?_, ?_, ?_⟩, fun f member => introduced.known f (.inl (by simpa using member))⟩
  · simp only [Training.introduce, LearnerCore.introduce]
    rw [core]
    exact plain
  · simp only [Training.introduce, LearnerCore.introduce]
    rw [core]
    exact isLazy
  · exact congrArg _ introduced.synchronous
  · have owes' := introduced.owes
    simp only [Training.introduce, LearnerCore.introduce]
    rw [core]
    exact owes'

theorem synchronous (same : Lockstep epoch late prompt) : prompt.learner.core.schedule.isLazy = false := by
  rw [same.learner]
  rfl

theorem prepared_prompt (same : Lockstep epoch late prompt) (e : TrainingExample) :
    prompt.prepared e epoch = prompt.parameters :=
  prepared_of_synchronous same.synchronous e epoch

/-- What an example reads: weights that owe nothing, and so those of the synchronous schedule. -/
theorem prepared (same : Lockstep epoch late prompt) (e : TrainingExample) :
    Owes late.learner.core.schedule.regularizer late.learner.core.fixed
        (late.learner.core.rate epoch) late.learner.core.schedule.clock (late.prepared e epoch)
        (prompt.prepared e epoch) ∧
      ∀ f ∈ e.graph.features, owed late.learner.core.fixed late.learner.core.schedule.clock
        (late.prepared e epoch) f = 0 := by
  have settled : late.prepared e epoch =
      (overFeatures (late.learner.core.schedule.settle late.learner.core.schedule.clock
        (late.learner.core.rate epoch)) late.parameters (late.movable e)).2 := by
    rw [Training.prepared, Schedule.prepare, if_pos]
    · rfl
    · exact same.isLazy
  obtain ⟨owes, even⟩ := same.owes.settleAll same.plain fun f member => (mem_movable.1 member).2
  rw [same.prepared_prompt, settled]
  refine ⟨owes, fun f member => ?_⟩
  cases held : late.learner.core.fixed.isFixed f with
  | false => exact even f (.inl (mem_movable.2 ⟨member, held⟩))
  | true => simp [owed, held]

/-- The step along a slope and the decay after it keep the two in step. -/
theorem moved (same : Lockstep epoch late prompt) (e : TrainingExample) (v : LossValue ℝ)
    (known : ∀ f ∈ e.graph.features, (late.parameters.get? f).isSome) :
    Lockstep epoch ⟨late.ticked, late.moved e epoch v⟩ ⟨prompt.ticked, prompt.moved e epoch v⟩ := by
  obtain ⟨owes, even⟩ := same.prepared e
  have ready : ∀ x ∈ late.learner.core.trainable e.graph,
      ((late.prepared e epoch).get? x.2).isSome ∧ owed late.learner.core.fixed
        late.learner.core.schedule.clock (late.prepared e epoch) x.2 = 0 := by
    intro x member
    have feature := (mem_movable.1 (List.mem_map_of_mem member)).1
    refine ⟨?_, even _ feature⟩
    rw [← owes.isSome_eq, same.prepared_prompt, same.owes.isSome_eq]
    exact known _ feature
  have descended := owes.descend e v ready
  -- the synchronous schedule takes a step for every weight, and the clock says that the lazy one owes it
  have stepped := descended.tick (get?_decayAll same.plain _)
  have free : ∀ f ∈ late.movable e, late.learner.core.fixed.isFixed f = false :=
    fun f member => (mem_movable.1 member).2
  -- the lazy one pays for the features of the example at once
  have settled := (stepped.settleAll (s := late.ticked.core.schedule) same.plain free).1
  have lates : late.moved e epoch v =
      (overFeatures (late.ticked.core.schedule.settle (late.learner.core.schedule.clock + 1)
        (late.learner.core.rate epoch)) (Training.descend (late.learner.core.rate epoch) e v
          (late.learner.core.trainable e.graph) (late.prepared e epoch)) (late.movable e)).2 := by
    rw [Training.moved, Schedule.apply, if_pos]
    · rfl
    · exact same.isLazy
  have prompts : prompt.moved e epoch v =
      (overFeatures (fun p f => late.learner.core.schedule.regularizer.decay p f 1
        (late.learner.core.rate epoch)) (Training.descend (late.learner.core.rate epoch) e v
          (late.learner.core.trainable e.graph) (prompt.prepared e epoch))
        (trainable late.learner.core.fixed (Training.descend (late.learner.core.rate epoch) e v
          (late.learner.core.trainable e.graph) (prompt.prepared e epoch)))).2 := by
    rw [moved_of_synchronous same.synchronous, same.prepared_prompt, same.learner]
    rfl
  refine ⟨same.plain, same.isLazy, ?_, ?_⟩
  · rw [ticked, same.learner]
    rfl
  · rw [lates, prompts]
    exact settled

/-- An example reads the same weights of its features under both schedules. -/
theorem get?_prepared (same : Lockstep epoch late prompt) {e : TrainingExample} {f : String}
    (member : f ∈ e.graph.features) :
    (prompt.prepared e epoch).get? f = (late.prepared e epoch).get? f :=
  (same.prepared e).1.get?_eq ((same.prepared e).2 f member)

/-- So it has the same loss under both, or fails alike. -/
theorem lossOf_prepared (same : Lockstep epoch late prompt) (e : TrainingExample) :
    prompt.ticked.lossOf (prompt.prepared e epoch) e = late.ticked.lossOf (late.prepared e epoch) e := by
  rw [← Learner.lossOf_congr late.ticked { late.ticked.core.schedule with isLazy := false }
    fun f => same.get?_prepared, ticked, same.learner]
  rfl

/-- An example shows the same under both schedules, and keeps them in step. -/
theorem train (same : Lockstep epoch late prompt) (e : TrainingExample) :
    Corresponds (fun a b => a.1 = b.1 ∧ Lockstep epoch a.2 b.2) (late.train epoch e)
      (prompt.train epoch e) := by
  obtain ⟨same, known⟩ := same.introduce e.graph
  rw [train_eq, train_eq]
  generalize late.introduce e.graph = late at same known ⊢
  generalize prompt.introduce e.graph = prompt at same ⊢
  have reads : e.graph.features.toList.map (prompt.prepared e epoch).get? =
      e.graph.features.toList.map (late.prepared e epoch).get? :=
    List.map_congr_left fun f member => same.get?_prepared (by simpa using member)
  rw [same.lossOf_prepared, reads]
  cases late.ticked.lossOf (late.prepared e epoch) e with
  | error err => exact .error err
  | ok v => exact .ok ⟨rfl, same.moved e v known⟩

/-- So do the examples of an epoch. -/
theorem trainAll (examples : List TrainingExample) {late prompt : Training ℝ}
    (same : Lockstep epoch late prompt) :
    Corresponds (fun a b => a.1 = b.1 ∧ Lockstep epoch a.2 b.2) (late.trainAll epoch examples)
      (prompt.trainAll epoch examples) := by
  induction examples generalizing late prompt with
  | nil => exact .ok ⟨rfl, same⟩
  | cons e rest ih =>
    refine (same.train e).bind ?_
    rintro ⟨reading, late'⟩ ⟨_, prompt'⟩ ⟨rfl, same'⟩
    refine (ih same').bind ?_
    rintro ⟨readings, late''⟩ ⟨_, prompt''⟩ ⟨rfl, same''⟩
    exact .ok ⟨rfl, same''⟩

/-- The end of an epoch leaves the same weights, and both schedules are in step for the next epoch,
whatever its rate. -/
theorem endEpoch (same : Lockstep epoch late prompt) (next : Nat) :
    (late.endEpoch epoch).2.parameters.get? = (prompt.endEpoch epoch).2.parameters.get? ∧
      Lockstep next (late.endEpoch epoch).2 (prompt.endEpoch epoch).2 := by
  have lates : (late.endEpoch epoch).2.parameters =
      (overFeatures (late.learner.core.schedule.settle late.learner.core.schedule.clock
        (late.learner.core.rate epoch)) late.parameters
        (trainable late.learner.core.fixed late.parameters)).2 := by
    simp only [Training.endEpoch]
    rw [Schedule.cleanUp, if_pos same.isLazy]
  have prompts := parameters_endEpoch_of_synchronous same.synchronous epoch
  obtain ⟨owes, evens⟩ := same.owes.settleAll same.plain fun f member => (mem_trainable.1 member).2
  have even (f : String) : owed late.learner.core.fixed late.learner.core.schedule.clock
      (overFeatures (late.learner.core.schedule.settle late.learner.core.schedule.clock
        (late.learner.core.rate epoch)) late.parameters
        (trainable late.learner.core.fixed late.parameters)).2 f = 0 := by
    refine evens f ?_
    by_cases due : (late.parameters.get? f).isSome ∧ late.learner.core.fixed.isFixed f = false
    · exact .inl (mem_trainable.2 due)
    · exact .inr (if_neg due)
  rw [← lates] at owes even
  refine ⟨funext fun f => ?_, same.plain, same.isLazy, same.learner, ?_⟩
  · rw [prompts, owes.get?_eq (even f)]
  · -- nothing is owed any more, so the next rate may be another one
    rw [prompts]
    exact .of_even (fun f => owes.get?_eq (even f)) even owes.within

/-- So a whole run shows the same. -/
theorem run (epochs : List (List TrainingExample)) {late prompt : Training ℝ} {epoch : Nat}
    (same : Lockstep epoch late prompt) :
    Corresponds (· = ·) (late.run epoch epochs) (prompt.run epoch epochs) := by
  induction epochs generalizing late prompt epoch with
  | nil => exact .ok rfl
  | cons examples rest ih =>
    refine (same.trainAll examples).bind ?_
    rintro ⟨readings, late'⟩ ⟨_, prompt'⟩ ⟨rfl, same'⟩
    obtain ⟨left, next⟩ := same'.endEpoch (epoch + 1)
    refine (ih next).bind ?_
    rintro traces _ rfl
    exact .ok (congrArg (fun left => { readings, left } :: traces) left)

end Lockstep

/-- Lazy and synchronous decay show the same: the weights that every example reads, its loss, and the
weights that every epoch leaves. -/
theorem run_lazy_eq_run_synchronous (kind : LearnerKind) (core : LearnerCore ℝ) {r : Regularizer ℝ}
    (plain : r.IsPlain) {p : Parameters ℝ} (untouched : ∀ f, p.touched f = 0)
    (epochs : List (List TrainingExample)) :
    (Training.mk ⟨kind, { core with schedule := .new r true }⟩ p).run 1 epochs =
      (Training.mk ⟨kind, { core with schedule := .new r false }⟩ p).run 1 epochs := by
  have start : Lockstep 1 (Training.mk ⟨kind, { core with schedule := .new r true }⟩ p)
      (Training.mk ⟨kind, { core with schedule := .new r false }⟩ p) :=
    { plain, isLazy := rfl, learner := rfl
      owes := .of_even (fun _ => rfl) (fun f => owed_eq_zero (untouched f)) fun f => (untouched f).le }
  exact (start.run epochs).eq

/-- Under the exponential no node is degenerate. -/
theorem exists_load_exp {g : LearningGraph} (wellFormed : g.WellFormed) (p : Parameters ℝ) :
    ∃ s, Transitions.load .exp p g = .ok s := by
  refine ⟨_, (Transitions.ofWeights_spec wellFormed fun u _ => ?_).1⟩
  cases edges : g.edgesOf u with
  | nil => exact .inr fun e member => absurd member List.not_mem_nil
  | cons e rest =>
    refine .inl (ne_of_gt ?_)
    rw [LearningGraph.nodeWeight]
    refine List.sum_pos _ (fun w member => ?_) (by simp [edges])
    obtain ⟨e, -, rfl⟩ := List.mem_map.1 member
    exact Real.exp_pos _

/-- A learner that walks by rounds with exponential weights, and fixes no others than usual. -/
noncomputable def plainCore : LearnerCore ℝ where
  options := { alpha := Loss.half, epsilon := Loss.half, maxDepth := 3, stay := 0, maxTreeDepth := none }
  squash := .exp
  eta := 1
  loss := .posNeg Loss.half
  schedule := .new .none false
  fixed := .standard
  seed := 0
  copies := 0
  noise := 0

/-- Two epochs on the forked graph, with and without putting decay off. -/
theorem run_lazy_eq_run_synchronous_forked :
    (Regularizer.l2 (1 : ℝ)).IsPlain ∧ (∀ f, (Parameters.empty : Parameters ℝ).touched f = 0) ∧
      ∃ traces, traces.length = 2 ∧
        (Training.mk ⟨.rounds, { plainCore with schedule := .new (.l2 1) true }⟩ .empty).run 1
            [[.forked, .forked], [.forked]] = .ok traces ∧
        (Training.mk ⟨.rounds, { plainCore with schedule := .new (.l2 1) false }⟩ .empty).run 1
            [[.forked, .forked], [.forked]] = .ok traces := by
  have untouched (f : String) : (Parameters.empty : Parameters ℝ).touched f = 0 := by
    rw [Parameters.touched, Parameters.empty, Std.TreeMap.getElem?_emptyc]
    rfl
  have loads : ∀ examples ∈ [[TrainingExample.forked, .forked], [.forked]], ∀ e ∈ examples,
      ∀ p : Parameters ℝ, ∃ s, Transitions.load plainCore.squash p e.graph = .ok s := by
    intro examples member e isExample p
    have forked : e = .forked := by
      simp only [List.mem_cons, List.not_mem_nil, or_false] at member
      rcases member with rfl | rfl <;> simpa using isExample
    rw [forked]
    exact exists_load_exp TrainingExample.forked_wellFormed p
  obtain ⟨traces, runs, length⟩ := exists_run
    (t := ⟨⟨.rounds, { plainCore with schedule := .new (.l2 1) true }⟩, .empty⟩) rfl loads 1
  have same := run_lazy_eq_run_synchronous .rounds plainCore (.l2 1) untouched [[.forked, .forked], [.forked]]
  exact ⟨.l2 1, untouched, traces, length, runs, same.symm.trans runs⟩

end Training

end ProofWalk
