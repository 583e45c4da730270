import ProofWalk.Proofs.Learning.Regularizers
import ProofWalk.Proofs.Learning.Runs
import ProofWalk.Proofs.Learning.Trace

/-!
# What a training run depends on

Beside each weight stands the clock at which regularization last reached it, and no file holds these
clocks. The synchronous schedule never reads them: its runs depend on the weights that they start from and
on nothing else. The lazy schedule counts the steps that a weight has missed from them, while every run
begins its own clock again. Where the clocks of an earlier run are ahead of all that a run can reach, the
run takes no step of decay: it shows and leaves what it would without a regularizer.

## Main definitions

* `Parameters.Stable` — a relation between parameters that training on certain features keeps
* `Schedule.Agree` — two schedules that do the same to related parameters
* `Training.Alike` — two trainings that differ by the schedule and by related parameters

## Main results

* `Training.Alike.keeps` — whole runs show the same
* `Trainer.train_like` — runs from equal weights and, under the lazy schedule, equal clocks
* `Trainer.epochs_of_reached` — clocks that are ahead stop the decay
* `Trainer.epochs_after_endEpoch` — a lazy run that goes on from the parameters of a longer one
-/

namespace ProofWalk

variable {K : Type} [Scalar K]

/-- A relation between parameters of equal weights that is kept when certain features are trained, or get
their first weights. -/
structure Parameters.Stable (known : String → Prop) (R : Parameters K → Parameters K → Prop) : Prop where
  like : ∀ {p p'}, R p p' → p.Like false p'
  known_of_isSome : ∀ {p p' f}, R p p' → (p.get? f).isSome → known f
  adjust : ∀ {p p' f}, R p p' → known f → ∀ delta, R (p.adjust f delta) (p'.adjust f delta)
  insert : ∀ {p p' f}, R p p' → known f → p.get? f = none → ∀ w clock,
    R ((p.insertIfAbsent f w).touch f clock) ((p'.insertIfAbsent f w).touch f clock)

/-! ### Schedules that agree -/

namespace Schedule

/-- Two outcomes of a decay are charged the same and leave related parameters. -/
def Charged (R : Parameters K → Parameters K → Prop) (x y : K × Parameters K) : Prop :=
  x.1 = y.1 ∧ R x.2 y.2

/-- Two schedules do the same to the weights of certain features in related parameters, as long as their
clocks show certain times. -/
structure Agree (known : String → Prop) (R : Parameters K → Parameters K → Prop) (fixed : FixedWeights)
    (within : Nat → Prop) (s s' : Schedule K) : Prop where
  isLazy : s'.isLazy = s.isLazy
  clock : s'.clock = s.clock
  settle : s.isLazy = true → ∀ clock rate f, within clock → known f → fixed.isFixed f = false →
    ∀ p p', R p p' → Charged R (s.settle clock rate p f) (s'.settle clock rate p' f)
  decay : s.isLazy = false → ∀ rate f p p', R p p' →
    Charged R (s.regularizer.decay p f 1 rate) (s'.regularizer.decay p' f 1 rate)

variable {known : String → Prop} {R : Parameters K → Parameters K → Prop} {fixed : FixedWeights}
  {within : Nat → Prop} {s s' : Schedule K} {p p' : Parameters K} {features : List String}
  {clock : Nat} {rate : K}

theorem charged_overFeatures {decay decay' : Parameters K → String → K × Parameters K}
    (each : ∀ f ∈ features, ∀ p p', R p p' → Charged R (decay p f) (decay' p' f)) (related : R p p') :
    Charged R (overFeatures decay p features) (overFeatures decay' p' features) := by
  unfold overFeatures
  generalize (0 : K) = loss
  induction features generalizing loss p p' with
  | nil => exact ⟨rfl, related⟩
  | cons first rest ih =>
    obtain ⟨charge, related⟩ := each first List.mem_cons_self p p' related
    rw [List.foldl_cons, List.foldl_cons]
    dsimp only
    rw [charge]
    exact ih (fun f member => each f (List.mem_cons_of_mem _ member)) related _

namespace Agree

theorem tick (agree : Agree known R fixed within s s') : Agree known R fixed within s.tick s'.tick where
  isLazy := agree.isLazy
  clock := congrArg (· + 1) agree.clock
  settle := agree.settle
  decay := agree.decay

theorem settleAll (agree : Agree known R fixed within s s') (isLazy : s.isLazy = true)
    (inTime : within clock) (free : ∀ f ∈ features, known f ∧ fixed.isFixed f = false) (related : R p p') :
    Charged R (overFeatures (s.settle clock rate) p features)
      (overFeatures (s'.settle clock rate) p' features) :=
  charged_overFeatures (fun f member => agree.settle isLazy _ _ f inTime (free f member).1 (free f member).2)
    related

theorem prepare (agree : Agree known R fixed within s s') (rate : K) (inTime : within (s.clock - 1))
    (free : ∀ f ∈ features, known f ∧ fixed.isFixed f = false) (related : R p p') :
    Charged R (s.prepare s.clock rate p features) (s'.prepare s'.clock rate p' features) := by
  rw [Schedule.prepare, Schedule.prepare, agree.isLazy, agree.clock]
  split
  next isLazy => exact agree.settleAll isLazy inTime free related
  next => exact ⟨rfl, related⟩

theorem apply (stable : Parameters.Stable known R) (agree : Agree known R fixed within s s')
    (rate : K) (inTime : within s.clock) (free : ∀ f ∈ features, known f ∧ fixed.isFixed f = false)
    (related : R p p') :
    Charged R (s.apply fixed s.clock rate p features) (s'.apply fixed s'.clock rate p' features) := by
  rw [Schedule.apply, Schedule.apply, agree.isLazy, agree.clock]
  split
  next isLazy => exact agree.settleAll isLazy inTime free related
  next eager =>
    rw [← trainable_congr (stable.like related)]
    exact charged_overFeatures (fun f _ => agree.decay (Bool.not_eq_true _ ▸ eager) rate f) related

theorem cleanUp (stable : Parameters.Stable known R) (agree : Agree known R fixed within s s')
    (rate : K) (inTime : within s.clock) (related : R p p') :
    Charged R (s.cleanUp fixed rate p) (s'.cleanUp fixed rate p') := by
  rw [Schedule.cleanUp, Schedule.cleanUp, agree.isLazy, agree.clock]
  split
  next isLazy =>
    rw [← trainable_congr (stable.like related)]
    refine agree.settleAll isLazy inTime (fun f member => ?_) related
    obtain ⟨present, free⟩ := mem_trainable.1 member
    exact ⟨stable.known_of_isSome related present, free⟩
  next => exact ⟨rfl, related⟩

end Agree

end Schedule

/-! ### Trainings that show the same -/

namespace Training

open Schedule

/-- Two trainings whose learners differ by schedules that agree as far as a number of lines ahead, on
related parameters. -/
inductive Alike (known : String → Prop) (R : Parameters K → Parameters K → Prop) (within : Nat → Prop)
    (n : Nat) : Training K → Training K → Prop
  | of (l : Learner K) (s : Schedule K) {p p' : Parameters K}
      (agree : Agree known R l.core.fixed within l.core.schedule s)
      (inTime : ∀ clock ≤ l.core.schedule.clock + n, within clock) (related : R p p') :
      Alike known R within n ⟨l, p⟩ ⟨l.withSchedule s, p'⟩

namespace Alike

variable {known : String → Prop} {R : Parameters K → Parameters K → Prop} {within : Nat → Prop} {n : Nat}
  {t t' : Training K}

theorem fewer (alike : Alike known R within (n + 1) t t') : Alike known R within n t t' := by
  obtain ⟨l, s, agree, inTime, related⟩ := alike
  exact .of l s agree (fun clock early => inTime clock (Nat.le_succ_of_le early)) related

/-- A feature gets the same first weight, and leaves the same noise. -/
theorem introduceFeature (stable : Parameters.Stable known R) (c : LearnerCore K) {s : Schedule K}
    (clock : s.clock = c.schedule.clock) {f : String} (isKnown : known f) {p p' : Parameters K}
    (related : R p p') :
    ∃ noise q q', c.introduceFeature p f = ({ c with noise }, q) ∧
      ({ c with schedule := s } : LearnerCore K).introduceFeature p' f =
        ({ c with schedule := s, noise }, q') ∧ R q q' := by
  rw [LearnerCore.introduceFeature, LearnerCore.introduceFeature, ← (stable.like related).contains, clock]
  split
  next => exact ⟨c.noise, p, p', rfl, rfl, related⟩
  next absent =>
    have absent : p.get? f = none := by simpa using absent
    split
    · exact ⟨c.noise, _, _, rfl, rfl, stable.insert related isKnown absent _ _⟩
    · exact ⟨_, _, _, rfl, rfl, stable.insert related isKnown absent _ _⟩

/-- So do features one after the other. The learner that goes on has other noise. -/
theorem introduceFeatures (stable : Parameters.Stable known R) {s : Schedule K} (names : List String)
    (isKnown : ∀ f ∈ names, known f) (c : LearnerCore K) (clock : s.clock = c.schedule.clock)
    {p p' : Parameters K} (related : R p p') :
    ∃ noise q q', names.foldl (fun (c, p) f => c.introduceFeature p f) (c, p) = ({ c with noise }, q) ∧
      names.foldl (fun (c, p) f => c.introduceFeature p f) (({ c with schedule := s } : LearnerCore K), p') =
        ({ c with schedule := s, noise }, q') ∧ R q q' := by
  induction names generalizing c p p' with
  | nil => exact ⟨c.noise, p, p', rfl, rfl, related⟩
  | cons first rest ih =>
    obtain ⟨noise, q, q', one, other, related⟩ :=
      introduceFeature stable c clock (isKnown first List.mem_cons_self) related
    simp only [List.foldl_cons, one, other]
    exact ih (fun f member => isKnown f (List.mem_cons_of_mem _ member)) { c with noise } clock related

theorem introduce (stable : Parameters.Stable known R) {g : LearningGraph}
    (isKnown : ∀ f ∈ g.features, known f) (alike : Alike known R within n t t') :
    Alike known R within n (t.introduce g) (t'.introduce g) := by
  obtain ⟨⟨kind, c⟩, s, agree, inTime, related⟩ := alike
  rename_i p p'
  obtain ⟨noise, q, q', one, other, related⟩ := introduceFeatures stable
    g.features.toList (fun f member => isKnown f (by simpa using member)) c agree.clock related
  rw [Array.foldl_toList] at one other
  have left : Training.introduce ⟨⟨kind, c⟩, p⟩ g = ⟨⟨kind, { c with noise }⟩, q⟩ := by
    simp only [Training.introduce, LearnerCore.introduce, one]
  have right : Training.introduce ⟨Learner.withSchedule ⟨kind, c⟩ s, p'⟩ g =
      ⟨Learner.withSchedule ⟨kind, { c with noise }⟩ s, q'⟩ := by
    simp only [Training.introduce, LearnerCore.introduce, Learner.withSchedule, other]
  rw [left, right]
  exact .of ⟨kind, { c with noise }⟩ s agree inTime related

theorem descend (stable : Parameters.Stable known R) (rate : K) (e : TrainingExample) (v : LossValue K)
    {features : List (Nat × String)} (isKnown : ∀ x ∈ features, known x.2) {p p' : Parameters K}
    (related : R p p') :
    R (Training.descend rate e v features p) (Training.descend rate e v features p') := by
  induction features generalizing p p' with
  | nil => exact related
  | cons first rest ih =>
    simp only [Training.descend, List.foldl_cons]
    refine ih (fun x member => isKnown x (List.mem_cons_of_mem _ member)) ?_
    split
    · exact stable.adjust related (isKnown first List.mem_cons_self) _
    · exact related

theorem step (stable : Parameters.Stable known R) {e : TrainingExample}
    (isKnown : ∀ f ∈ e.graph.features, known f) (number : Nat) (alike : Alike known R within (n + 1) t t') :
    (t.step e number).1 = (t'.step e number).1 ∧
      Alike known R within n (t.step e number).2 (t'.step e number).2 := by
  obtain ⟨l, s, agree, inTime, related⟩ := alike
  rename_i p p'
  have later : ∀ clock ≤ l.core.schedule.tick.clock + n, within clock := fun clock early =>
    inTime clock (by simp only [Schedule.tick] at early; omega)
  have free : ∀ f ∈ movable ⟨l, p⟩ e, known f ∧ l.core.fixed.isFixed f = false :=
    fun f member => ⟨isKnown f (mem_movable.1 member).1, (mem_movable.1 member).2⟩
  have trained : ∀ x ∈ l.core.trainable e.graph, known x.2 :=
    fun x member => (free _ (List.mem_map_of_mem member)).1
  -- before the example weights are settled up to the clock that has just passed, after it up to its own
  have prepared := agree.tick.prepare (l.core.rate number)
    (later _ (Nat.le_trans (Nat.sub_le ..) (Nat.le_add_right ..))) free related
  have moved := fun v => agree.tick.apply stable (l.core.rate number) (later _ (Nat.le_add_right ..))
    free (descend stable (l.core.rate number) e v trained prepared.2)
  have losses : (ticked ⟨l.withSchedule s, p'⟩).lossOf (Training.prepared ⟨l.withSchedule s, p'⟩ e number) e =
      (ticked ⟨l, p⟩).lossOf (Training.prepared ⟨l, p⟩ e number) e :=
    (ticked ⟨l, p⟩).lossOf_congr s.tick fun f _ => ((stable.like prepared.2).weight f).symm
  rw [step_eq, step_eq, losses]
  cases (ticked ⟨l, p⟩).lossOf (Training.prepared ⟨l, p⟩ e number) e with
  | error err => exact ⟨rfl, .of (ticked ⟨l, p⟩) s.tick agree.tick later prepared.2⟩
  | ok v =>
    have charges : Training.charged ⟨l, p⟩ e number v = Training.charged ⟨l.withSchedule s, p'⟩ e number v :=
      congrArg₂ (· + ·) prepared.1 (moved v).1
    dsimp only
    rw [charges]
    exact ⟨rfl, .of (ticked ⟨l, p⟩) s.tick agree.tick later (moved v).2⟩

theorem endEpoch (stable : Parameters.Stable known R) (number : Nat) (alike : Alike known R within n t t') :
    (t.endEpoch number).1 = (t'.endEpoch number).1 ∧
      Alike known R within n (t.endEpoch number).2 (t'.endEpoch number).2 := by
  obtain ⟨l, s, agree, inTime, related⟩ := alike
  obtain ⟨charge, related⟩ := agree.cleanUp stable (l.core.rate number)
    (inTime _ (Nat.le_add_right ..)) related
  exact ⟨charge, .of l s agree inTime related⟩

/-- So the lines of a file and the ends of epochs show the same. -/
theorem keeps (stable : Parameters.Stable known R) (within : Nat → Prop) :
    Trainer.Keeps (fun e => ∀ f ∈ e.graph.features, known f) (Alike known R within) where
  fewer _ _ _ := fewer
  step _ _ _ _ number isKnown alike := (alike.introduce stable isKnown).step stable isKnown number
  endEpoch _ _ _ number alike := alike.endEpoch stable number

end Alike

end Training

/-! ### Equal weights -/

omit [Scalar K] in
theorem Parameters.Like.loosen {clocks : Bool} {p p' : Parameters K} (like : p.Like clocks p') :
    p.Like false p' :=
  ⟨like.weight, fun counts => absurd counts Bool.false_ne_true⟩

/-- Training keeps weights equal, and clocks. -/
theorem Parameters.stable_like (clocks : Bool) :
    Parameters.Stable (K := K) (fun _ => True) (Parameters.Like clocks) where
  like := Like.loosen
  known_of_isSome _ _ := trivial
  adjust like _ := like.adjust _
  insert like _ _ w clock := (like.insertIfAbsent _ w).touch _ clock

/-- A schedule agrees with itself on equal weights; the lazy one reads the clocks as well. -/
theorem Schedule.agree_like (s : Schedule K) (fixed : FixedWeights) :
    Agree (fun _ => True) (Parameters.Like s.isLazy) fixed (fun _ => True) s s where
  isLazy := rfl
  clock := rfl
  settle isLazy clock rate f _ _ _ p p' like := by
    rw [settle, settle, like.clock isLazy]
    have alike := s.regularizer.decay_alike f (clock - p'.touched f) rate (like.touch f clock)
    exact ⟨alike.charge, alike.like⟩
  decay _ rate f _ _ like :=
    have alike := s.regularizer.decay_alike f 1 rate like
    ⟨alike.charge, alike.like⟩

variable {m : Type → Type} [Monad m] [LawfulMonad m] [Clock m]

/-- Training from equal weights and, under the lazy schedule, equal clocks gives the same report and leaves
equal weights. -/
theorem Trainer.train_like [Files m] (r : Trainer K) (grounded : String) {p p' : Parameters K}
    (like : p.Like r.learner.core.schedule.isLazy p') :
    Alongside (fun a b => a.1 = b.1 ∧ a.2.Like r.learner.core.schedule.isLazy b.2)
      (r.train (m := m) grounded p) (r.train grounded p') := by
  have keeps := Training.Alike.keeps (Parameters.stable_like (K := K) r.learner.core.schedule.isLazy)
    fun _ => True
  have start (n : Nat) : Training.Alike (fun _ => True) (Parameters.Like r.learner.core.schedule.isLazy)
      (fun _ => True) n { learner := r.learner.copy.1, parameters := p }
        { learner := r.learner.copy.1, parameters := p' } :=
    .of r.learner.copy.1 r.learner.core.schedule (r.learner.core.schedule.agree_like _)
      (fun _ _ => trivial) like
  refine (keeps.train (fun _ _ _ => trivial) r grounded start).mono ?_
  rintro ⟨report, q⟩ ⟨_, q'⟩ ⟨rfl, l, l', alike⟩
  cases alike
  exact ⟨rfl, by assumption⟩

/-! ### Clocks that are ahead -/

/-- The features of parameters are the given ones, and their clocks have reached a bound. -/
structure Parameters.Reached (known : String → Prop) (fixed : FixedWeights) (bound : Nat)
    (p : Parameters K) : Prop where
  isSome_iff : ∀ f, (p.get? f).isSome ↔ known f
  bound_le : ∀ f, known f → fixed.isFixed f = false → bound ≤ p.touched f

namespace Parameters.Reached

variable {known : String → Prop} {fixed : FixedWeights} {bound : Nat} {p q : Parameters K}

omit [Scalar K] in
theorem of_steady (reached : p.Reached known fixed bound) (steady : p.Steady q) :
    q.Reached known fixed bound where
  isSome_iff f := by rw [steady.isSome, reached.isSome_iff]
  bound_le f isKnown free := by
    rw [steady.touched]
    exact reached.bound_le f isKnown free

omit [Scalar K] in
theorem touch (reached : p.Reached known fixed bound) (f : String) (clock : Nat) :
    (p.touch f clock).Reached known fixed bound where
  isSome_iff g := by rw [get?_touch, reached.isSome_iff]
  bound_le g isKnown free := by
    have before := reached.bound_le g isKnown free
    rw [touched_touch]
    split
    next own => exact Nat.le_trans (own.1 ▸ before) (Nat.le_max_left ..)
    next => exact before

theorem stable (known : String → Prop) (fixed : FixedWeights) (bound : Nat) :
    Parameters.Stable (K := K) known fun p p' => p = p' ∧ p.Reached known fixed bound where
  like := by
    rintro p _ ⟨rfl, -⟩
    exact .refl
  known_of_isSome := by
    rintro p _ f ⟨rfl, reached⟩ present
    exact (reached.isSome_iff f).1 present
  adjust := by
    rintro p _ f ⟨rfl, reached⟩ isKnown delta
    exact ⟨rfl, reached.of_steady (.set ((reached.isSome_iff f).2 isKnown) _)⟩
  insert := by
    rintro p _ f ⟨rfl, reached⟩ isKnown absent
    exact absurd ((reached.isSome_iff f).2 isKnown) (by simp [absent])

end Parameters.Reached

namespace Schedule

/-- A schedule without a regularizer. -/
def unregularized (s : Schedule K) : Schedule K := { s with regularizer := .none }

/-- Up to the time that all clocks have reached, the lazy schedule takes no steps. -/
theorem agree_unregularized {s : Schedule K} (isLazy : s.isLazy = true) (known : String → Prop)
    (fixed : FixedWeights) (bound : Nat) :
    Agree known (fun p p' => p = p' ∧ p.Reached known fixed bound) fixed (· ≤ bound) s s.unregularized where
  isLazy := rfl
  clock := rfl
  settle _ clock rate f inTime isKnown free := by
    rintro p _ ⟨rfl, reached⟩
    have none_left : clock - p.touched f = 0 :=
      Nat.sub_eq_zero_of_le (Nat.le_trans inTime (reached.bound_le f isKnown free))
    rw [settle, settle, none_left, s.regularizer.decay_zero]
    exact ⟨rfl, rfl, reached.touch f clock⟩
  decay eager := absurd isLazy (by simp [eager])

end Schedule

/-- Where the clocks of all features are ahead of what a run under the lazy schedule can reach, and no feature
of the lines is new, the run is one without a regularizer: it gives the same report and leaves the same
parameters. -/
theorem Trainer.epochs_of_reached (pipeline : Pipeline) {index : Option FeatureTable} {lines : List String}
    {l : Learner K} {p : Parameters K} (isLazy : l.core.schedule.isLazy = true) (limit : Nat)
    (stopping : Stopping K) (report : TrainingReport K)
    (known : ∀ line ∈ lines, ∀ e, TrainingExample.parse? line index = .ok e →
      ∀ f ∈ e.graph.features, (p.get? f).isSome)
    (ahead : ∀ f, (p.get? f).isSome → l.core.fixed.isFixed f = false →
      l.core.schedule.clock + limit * lines.length ≤ p.touched f) :
    Alongside (fun a b => a.1 = b.1 ∧ a.2.parameters = b.2.parameters)
      (epochs (m := m) pipeline index lines limit stopping report ⟨l, p⟩)
      (epochs pipeline index lines limit stopping report
        ⟨l.withSchedule l.core.schedule.unregularized, p⟩) := by
  have keeps := Training.Alike.keeps (Parameters.Reached.stable (K := K) (fun f => (p.get? f).isSome)
    l.core.fixed (l.core.schedule.clock + limit * lines.length))
    (· ≤ l.core.schedule.clock + limit * lines.length)
  refine (keeps.epochs (n := 0) known pipeline limit stopping report (.of l _
    (Schedule.agree_unregularized isLazy _ _ _) (fun clock early => ?_)
    ⟨rfl, fun _ => Iff.rfl, ahead⟩)).mono ?_
  · rwa [Nat.zero_add] at early
  · rintro ⟨result, t⟩ ⟨_, t'⟩ ⟨rfl, alike⟩
    cases alike with
    | of _ _ _ _ related => exact ⟨rfl, related.1⟩

namespace Schedule

variable (s : Schedule K) (clock : Nat) (rate : K) {features : List String} {p : Parameters K} {f : String}

theorem isSome_foldl_settle :
    ((features.foldl (fun p f => (s.settle clock rate p f).2) p).get? f).isSome = (p.get? f).isSome := by
  induction features generalizing p with
  | nil => rfl
  | cons first rest ih => exact ih.trans isSome_settle

/-- Settling features one after the other moves their clocks up to a time, and no clock back. -/
theorem le_touched_foldl_settle (due : f ∈ features ∧ (p.get? f).isSome ∨ clock ≤ p.touched f) :
    clock ≤ (features.foldl (fun p f => (s.settle clock rate p f).2) p).touched f := by
  induction features generalizing p with
  | nil => exact due.resolve_left fun both => List.not_mem_nil both.1
  | cons first rest ih =>
    refine ih ?_
    rw [isSome_settle, touched_settle]
    rcases due with ⟨member, present⟩ | reached
    · by_cases own : f = first
      · subst own
        rw [if_pos ⟨rfl, present⟩]
        exact .inr (Nat.le_max_right ..)
      · exact .inl ⟨(List.mem_cons.1 member).resolve_left own, present⟩
    · refine .inr ?_
      split
      · exact Nat.le_max_right ..
      · exact reached

end Schedule

open Schedule in
/-- At the end of an epoch under the lazy schedule, every feature that training may move has been reached. -/
theorem Training.clock_le_touched_endEpoch {t : Training K} (isLazy : t.learner.core.schedule.isLazy = true)
    (number : Nat) {f : String} (present : ((t.endEpoch number).2.parameters.get? f).isSome)
    (free : t.learner.core.fixed.isFixed f = false) :
    t.learner.core.schedule.clock ≤ (t.endEpoch number).2.parameters.touched f := by
  have settled : (t.endEpoch number).2.parameters =
      (trainable t.learner.core.fixed t.parameters).foldl (fun p f =>
        (t.learner.core.schedule.settle t.learner.core.schedule.clock (t.learner.core.rate number) p f).2)
        t.parameters := by
    simp only [Training.endEpoch]
    rw [cleanUp, if_pos isLazy, overFeatures_parameters]
  rw [settled] at present ⊢
  rw [isSome_foldl_settle] at present
  exact le_touched_foldl_settle _ _ _ (.inl ⟨mem_trainable.2 ⟨present, free⟩, present⟩)

/-- A lazy run that goes on from the parameters that the end of an epoch has left, with features that it knows
and with a clock that does not catch up with the one of that epoch, lets no weight decay. -/
theorem Trainer.epochs_after_endEpoch (pipeline : Pipeline) {index : Option FeatureTable}
    {lines : List String} {t : Training K} {l : Learner K}
    (wasLazy : t.learner.core.schedule.isLazy = true) (isLazy : l.core.schedule.isLazy = true)
    (fixed : l.core.fixed = t.learner.core.fixed) (number limit : Nat) (stopping : Stopping K)
    (report : TrainingReport K)
    (known : ∀ line ∈ lines, ∀ e, TrainingExample.parse? line index = .ok e →
      ∀ f ∈ e.graph.features, ((t.endEpoch number).2.parameters.get? f).isSome)
    (behind : l.core.schedule.clock + limit * lines.length ≤ t.learner.core.schedule.clock) :
    Alongside (fun a b => a.1 = b.1 ∧ a.2.parameters = b.2.parameters)
      (epochs (m := m) pipeline index lines limit stopping report ⟨l, (t.endEpoch number).2.parameters⟩)
      (epochs pipeline index lines limit stopping report
        ⟨l.withSchedule l.core.schedule.unregularized, (t.endEpoch number).2.parameters⟩) :=
  epochs_of_reached pipeline isLazy limit stopping report known fun _ present free =>
    Nat.le_trans behind (Training.clock_le_touched_endEpoch wasLazy number present (fixed ▸ free))

end ProofWalk
