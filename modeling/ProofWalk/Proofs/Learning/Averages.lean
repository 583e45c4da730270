import ProofWalk.Learning.GradientFinder
import ProofWalk.Proofs.Exact
import ProofWalk.Proofs.FeatureIndex
import ProofWalk.Proofs.Learning.Listings
import ProofWalk.Proofs.Parameters
import ProofWalk.Proofs.Pipeline.Delivery

/-!
# Averages of gradients

The gradient of a file is the average of the slopes of its examples, each for one of its labels. Examples
add their slopes feature by feature to sums that they share, and the number of those that count is that of
the results that arrive; over the reals neither depends on any order. Lines that cannot be read, and
examples that have no loss, add nothing and do not count.

A line that stops the program leaves no gradient at all. That is so for a graph without nodes, which a line
may declare: the walk by rounds finds nothing to do there, but the walk by local push asks for the residual
of the first node. No other example does that, for edges lead to nodes of the graph, so that a push never
leaves it.

## Main definitions

* `Learner.StopsAt` — a learner asks for a node of a graph that has none
* `GradientFinder.contribution` — what a line adds
* `GradientFinder.average` — the average over contributions

## Main results

* `Learner.lossOf_stops_iff` — which examples stop the program
* `Parameters.get?_adjustAll` — sums do not depend on the order of their parts
* `GradientFinder.find_averages` — the gradient of a file, for any order in which its lines are done
* `GradientFinder.find_stops` — a line that stops the program
* `GradientFinder.average_of_lines` — lines in another order, and lines that are repeated
* `GradientFinder.total_slopes` — what a line adds is the slope of its loss
-/

namespace ProofWalk

/-! ### Graphs without nodes -/

namespace GradedPush

variable {K : Type} [Scalar K] {o : WalkOptions K} {e : TrainingExample} {t : Transitions K} {bound : Nat}
  {threshold : K} {m : DualMass K} {err : Error}

/-- The first pass on a graph without nodes stops the program. -/
theorem walk_nodeless (nodeless : e.graph.nodeCount = 0) (start : e.seed = [(1, 1)])
    (shallow : o.isTooDeep 1 = false) : walk o e t (bound + 1) = .error .indexOutOfBounds := by
  have first (threshold : K) (m : DualMass K) :
      pass o e t (bound + 1) threshold (bound + 1) 1 1 m = .error .indexOutOfBounds := by
    rw [pass, if_neg (by rw [shallow]; exact Bool.false_ne_true), if_pos (by rw [nodeless]; exact Nat.one_pos)]
  rw [walk, tighten, passAll, start, List.foldlM_cons]
  simp only [first]
  rfl

/-- A pass from a node stays in the graph, so that it fails only by being cut off. So does one that is too
deep to begin. -/
theorem pass_error (wellFormed : e.graph.WellFormed) {limit depth u : Nat}
    (start : o.isTooDeep depth = true ∨ u ∈ e.graph.nodes)
    (failed : pass o e t bound threshold limit depth u m = .error err) : err = .walkUnfinished := by
  induction limit generalizing depth u m err with
  | zero =>
    cases failed
    rfl
  | succ limit ih =>
    rw [pass] at failed
    simp only at failed
    split at failed
    · cases failed
    rename_i shallow
    have node := start.resolve_left shallow
    rw [if_neg (Nat.not_lt.2 (LearningGraph.mem_nodes.1 node).2)] at failed
    split at failed
    · cases failed
    split at failed
    · cases failed
    split at failed
    · cases failed
      rfl
    refine Except.foldlM_error (P := (· = .walkUnfinished)) (fun before edge member err failed => ?_) failed
    split at failed
    · cases failed
    · -- an edge leads to a node, so the pass from there does not leave the graph either
      rcases Except.bind_eq_error.1 failed with failed | ⟨result, -, failed⟩
      · exact ih (.inr (wellFormed.target_mem_nodes node member)) failed
      · cases failed

section

variable (wellFormed : e.graph.WellFormed) (starts : ∀ u ∈ e.seed, o.isTooDeep 1 = true ∨ u.1 ∈ e.graph.nodes)
include wellFormed starts

theorem passAll_error (failed : passAll o e t bound threshold m = .error err) : err = .walkUnfinished := by
  rw [passAll] at failed
  refine Except.foldlM_error (P := (· = .walkUnfinished)) (fun before start member err failed => ?_) failed
  rcases Except.bind_eq_error.1 failed with failed | ⟨result, -, failed⟩
  · exact pass_error wellFormed (starts start member) failed
  · cases failed

theorem tighten_error {limit : Nat} (failed : tighten o e t bound limit threshold m = .error err) :
    err = .walkUnfinished := by
  induction limit generalizing threshold m with
  | zero =>
    cases failed
    rfl
  | succ limit ih =>
    rw [tighten] at failed
    rcases Except.bind_eq_error.1 failed with failed | ⟨result, -, failed⟩
    · exact passAll_error wellFormed starts failed
    · simp only at failed
      split at failed
      · cases failed
      · exact ih failed

/-- A walk that starts at nodes of the graph fails only by being cut off. -/
theorem walk_error (failed : walk o e t bound = .error err) : err = .walkUnfinished :=
  tighten_error wellFormed starts failed

end

end GradedPush

namespace LearnerCore

variable {K : Type} [Scalar K] {c : LearnerCore K} {p : Parameters K} {g : LearningGraph} {err : Error}

/-- Probabilities are missing only where weights cancel out. -/
theorem load_error (failed : c.load p g = .error err) : ∃ u, err = .degenerateNode u := by
  unfold LearnerCore.load Transitions.load at failed
  refine Except.foldlM_error (P := fun err => ∃ u, err = .degenerateNode u)
    (fun before u _ err failed => ?_) failed
  rcases Except.bind_eq_error.1 failed with failed | ⟨shares, -, failed⟩
  · unfold Transitions.ofNode at failed
    simp only at failed
    split at failed
    · split at failed
      · cases failed
        exact ⟨u, rfl⟩
      · cases failed
    · cases failed
  · cases failed

/-- Graphs without nodes have probabilities. -/
theorem load_nodeless (nodeless : g.nodeCount = 0) : ∃ t, c.load p g = .ok t := by
  have none : g.nodes = [] := by rw [LearningGraph.nodes, nodeless]; rfl
  unfold LearnerCore.load Transitions.load
  rw [none]
  exact ⟨_, rfl⟩

end LearnerCore

namespace Learner

variable {K : Type} [Scalar K] {l : Learner K} {p : Parameters K} {e : TrainingExample}

/-- A learner asks for the first node of a graph that has none. -/
def StopsAt (l : Learner K) (e : TrainingExample) : Prop :=
  l.kind = .push ∧ e.graph.nodeCount = 0 ∧ l.core.options.isTooDeep 1 = false

/-- Of all examples that stand in lines, only those stop the program at which a learner asks for a node
that is not there. -/
theorem lossOf_stops_iff {line : String} {index : Option FeatureTable}
    (parsed : TrainingExample.parse? line index = .ok e) :
    l.lossOf p e = .error .indexOutOfBounds ↔ l.StopsAt e := by
  obtain ⟨wellFormed, start⟩ := TrainingExample.wellFormed_of_parse? parsed
  constructor
  · intro failed
    rcases Except.bind_eq_error.1 failed with failed | ⟨t, -, failed⟩
    · obtain ⟨u, equal⟩ := LearnerCore.load_error failed
      cases equal
    rcases Except.bind_eq_error.1 failed with failed | ⟨scores, -, failed⟩
    swap
    · cases failed
    unfold walk at failed
    split at failed
    · cases failed
    rename_i isPush
    -- a walk that starts at a node, or does not start at all, would only be cut off
    have apart : ¬∀ u ∈ e.seed, l.core.options.isTooDeep 1 = true ∨ u.1 ∈ e.graph.nodes := by
      intro starts
      cases walked : GradedPush.walk l.core.options e t with
      | error err =>
        obtain rfl := GradedPush.walk_error wellFormed starts walked
        rw [walked] at failed
        cases failed
      | ok m =>
        rw [walked] at failed
        cases failed
    simp only [start, List.mem_singleton, forall_eq, LearningGraph.mem_nodes, not_or] at apart
    obtain ⟨shallow, empty⟩ := apart
    exact ⟨isPush, by omega, by simpa using shallow⟩
  · rintro ⟨isPush, nodeless, shallow⟩
    obtain ⟨t, loaded⟩ := LearnerCore.load_nodeless (c := l.core) (p := p) nodeless
    obtain ⟨bound, isLimit⟩ := Nat.exists_eq_succ_of_ne_zero (n := walkLimit) (by decide)
    have walks : l.walk e t = .error .indexOutOfBounds := by
      rw [walk, isPush]
      simp only
      rw [isLimit, GradedPush.walk_nodeless nodeless start shallow]
      rfl
    rw [lossOf, loaded]
    exact Except.bind_eq_error.2 (.inr ⟨t, rfl, Except.bind_eq_error.2 (.inl walks)⟩)

end Learner

/-! ### Sums of adjustments -/

namespace Parameters

/-- Adjusts weights one by one. -/
def adjustAll {K : Type} [Scalar K] (p : Parameters K) (amounts : List (String × K)) : Parameters K :=
  amounts.foldl (fun p amount => p.adjust amount.1 amount.2) p

/-- How much a feature is given in total. -/
noncomputable def total (amounts : List (String × ℝ)) (name : String) : ℝ :=
  ((amounts.filter (·.1 = name)).map (·.2)).sum

variable {amounts amounts' : List (String × ℝ)} {name : String}

theorem total_append : total (amounts ++ amounts') name = total amounts name + total amounts' name := by
  rw [total, List.filter_append, List.map_append, List.sum_append]
  rfl

theorem total_cons (amount : String × ℝ) :
    total (amount :: amounts) name = (if amount.1 = name then amount.2 else 0) + total amounts name := by
  unfold total
  split
  · rename_i own
    rw [List.filter_cons_of_pos (by simpa using own), List.map_cons, List.sum_cons]
  · rename_i other
    rw [List.filter_cons_of_neg (by simpa using other), zero_add]

theorem total_of_not_mem (isNew : name ∉ amounts.map (·.1)) : total amounts name = 0 := by
  have none : amounts.filter (·.1 = name) = [] := List.filter_eq_nil_iff.2 fun amount member own =>
    isNew (of_decide_eq_true own ▸ List.mem_map_of_mem member)
  rw [total, none]
  rfl

theorem total_of_perm (same : amounts.Perm amounts') : total amounts name = total amounts' name :=
  ((same.filter _).map _).sum_eq

/-- Adjustments add up, in whatever order they are made. -/
theorem get?_adjustAll {p : Parameters ℝ} :
    (p.adjustAll amounts).get? name =
      if name ∈ amounts.map (·.1) then some (p.getD name 0 + total amounts name) else p.get? name := by
  induction amounts generalizing p with
  | nil => rfl
  | cons amount rest ih =>
    rw [adjustAll, List.foldl_cons, ← adjustAll, ih, getD, get?_adjust, total_cons, List.map_cons]
    by_cases own : name = amount.1
    · subst own
      rw [if_pos rfl, if_pos rfl, if_pos List.mem_cons_self, Option.getD_some, ← add_assoc]
      split
      · rfl
      · -- the rest gives the feature nothing
        rename_i isNew
        rw [total_of_not_mem isNew, add_zero]
    · rw [if_neg own, if_neg (Ne.symm own), zero_add]
      simp only [List.mem_cons, own, false_or]
      rfl

/-- A feature that is given something once. -/
theorem total_of_mem (distinct : (amounts.map (·.1)).Nodup) {x : ℝ} (member : (name, x) ∈ amounts) :
    total amounts name = x := by
  induction amounts with
  | nil => cases member
  | cons amount rest ih =>
    obtain ⟨isNew, distinct⟩ := List.nodup_cons.1 distinct
    rw [total_cons]
    rcases List.mem_cons.1 member with rfl | member
    · rw [if_pos rfl, total_of_not_mem isNew, add_zero]
    · have other : amount.1 ≠ name := fun own => isNew (List.mem_map.2 ⟨_, member, own.symm⟩)
      rw [if_neg other, zero_add, ih distinct member]

theorem total_flatMap {α : Type} (parts : List α) (given : α → List (String × ℝ)) :
    total (parts.flatMap given) name = (parts.map fun part => total (given part) name).sum := by
  induction parts with
  | nil => rfl
  | cons part rest ih => rw [List.flatMap_cons, total_append, ih, List.map_cons, List.sum_cons]

theorem adjustAll_append {K : Type} [Scalar K] (p : Parameters K) (amounts amounts' : List (String × K)) :
    p.adjustAll (amounts ++ amounts') = (p.adjustAll amounts).adjustAll amounts' :=
  List.foldl_append

end Parameters

/-! ### Lines -/

namespace GradientFinder

open Parameters Delivery

section

variable {K : Type} {r : Except Error (TrainingExample × LossValue K)}

/-- The result of the task of a line. -/
def taskResult (r : Except Error (TrainingExample × LossValue K)) : Except Error (Option K) :=
  r.map fun part => some part.2.loss

/-- The outcome of a task that does not stop the program. -/
def taskOutcome : Except Error (TrainingExample × LossValue K) → Outcome K
  | .ok part => .output part.2.loss
  | .error _ => .failed

theorem outcome_taskResult (calm : r ≠ .error .indexOutOfBounds) :
    Pipeline.outcome (taskResult r) = .ok (taskOutcome r) := by
  cases r with
  | ok part => rfl
  | error e =>
    cases e
    case indexOutOfBounds => exact absurd rfl calm
    all_goals rfl

theorem stopOf_taskResult {e : Error} (stops : Pipeline.stopOf (taskResult r) = some e) :
    e = .indexOutOfBounds := by
  by_cases failed : r = .error .indexOutOfBounds
  · rw [failed] at stops
    exact (Option.some.inj stops).symm
  · rw [Pipeline.stopOf, outcome_taskResult failed] at stops
    cases stops

end

section

variable {K : Type} [Scalar K] {l : Learner K} {index : Option FeatureTable} {p : Parameters K}
  {line : String} {lines : List String}

/-- What a line adds: the example that it holds, with the loss of the example. -/
def contribution (l : Learner K) (index : Option FeatureTable) (p : Parameters K) (line : String) :
    Except Error (TrainingExample × LossValue K) := do
  let e ← TrainingExample.parse? line index
  let v ← l.lossOf p e
  return (e, v)

/-- The contributions of the lines that count. -/
def contributions (l : Learner K) (index : Option FeatureTable) (p : Parameters K) (lines : List String) :
    List (TrainingExample × LossValue K) :=
  lines.filterMap fun line => (contribution l index p line).toOption

/-- The slopes by the trainable features of an example, for one label. -/
def slopes (l : Learner K) (part : TrainingExample × LossValue K) : List (String × K) :=
  (l.core.trainable part.1.graph).map fun (k, name) => (name, Learner.slopePerLabel part.1 part.2 k)

/-- What becomes of the sums. -/
def addTo (l : Learner K) (sum : Parameters K) :
    Except Error (TrainingExample × LossValue K) → Parameters K
  | .ok part => sum.adjustAll (slopes l part)
  | .error _ => sum

theorem work_eq {m : Type → Type} [Monad m] (task : Nat) (sum : Parameters K) :
    work (m := m) l index p task line sum =
      pure (taskResult (contribution l index p line), addTo l sum (contribution l index p line)) := by
  unfold work contribution
  cases TrainingExample.parse? line index with
  | error e => rfl
  | ok e =>
    unfold Learner.addGradient
    simp only [bind, Except.bind]
    cases l.lossOf p e with
    | error err => rfl
    | ok v =>
      simp only [addTo, slopes, adjustAll, List.foldl_map]
      rfl

/-- A line whose result stops the program holds an example that asks for a node that is not there. -/
theorem contribution_stops_iff :
    contribution l index p line = .error .indexOutOfBounds ↔
      ∃ e, TrainingExample.parse? line index = .ok e ∧ l.StopsAt e := by
  have readable : TrainingExample.parse? line index ≠ .error .indexOutOfBounds := by
    unfold TrainingExample.parse?
    simp only
    split
    · nofun
    · nofun
  constructor
  · intro failed
    obtain ⟨e, parsed, failed⟩ := (Except.bind_eq_error.1 failed).resolve_left readable
    rcases Except.bind_eq_error.1 failed with failed | ⟨v, -, failed⟩
    · exact ⟨e, parsed, (Learner.lossOf_stops_iff parsed).1 failed⟩
    · cases failed
  · rintro ⟨e, parsed, stops⟩
    exact Except.bind_eq_error.2 (.inr ⟨e, parsed,
      Except.bind_eq_error.2 (.inl ((Learner.lossOf_stops_iff parsed).2 stops))⟩)

/-- The sums behind some lines, which were done in turn. -/
theorem foldl_addTo (lines : List String) (sum : Parameters K) :
    lines.foldl (fun sum line => addTo l sum (contribution l index p line)) sum =
      sum.adjustAll ((contributions l index p lines).flatMap (slopes l)) := by
  induction lines generalizing sum with
  | nil => rfl
  | cons line rest ih =>
    rw [List.foldl_cons, ih]
    unfold contributions
    rw [List.filterMap_cons]
    cases contribution l index p line with
    | error e => rfl
    | ok part => exact (adjustAll_append ..).symm

/-- How many tasks there are of each kind. -/
def tally (l : Learner K) (index : Option FeatureTable) (p : Parameters K) (lines : List String) :
    TaskCounts where
  submitted := lines.length
  emitted := (contributions l index p lines).length
  skipped := 0
  failed := lines.length - (contributions l index p lines).length

/-- The outcomes of the tasks by their numbers. -/
def outcomes (l : Learner K) (index : Option FeatureTable) (p : Parameters K) (lines : List String)
    (task : Nat) : Outcome K :=
  taskOutcome ((lines[task - 1]?).elim (.error .walkUnfinished) (contribution l index p))

/-- Sums up the losses of the lines that count. -/
def addLoss : Sink K K := fun _ loss total => (.ok (), total + loss)

theorem countP_outcomes (is : Outcome K → Bool) :
    (List.range' 1 lines.length).countP (fun task => is (outcomes l index p lines task)) =
      lines.countP fun line => is (taskOutcome (contribution l index p line)) := by
  have same : (List.range' 1 lines.length).map (outcomes l index p lines) =
      lines.map fun line => taskOutcome (contribution l index p line) := by
    refine List.ext_getElem (by simp) fun i _ inside => ?_
    rw [List.length_map] at inside
    simp [outcomes, List.getElem?_eq_getElem inside]
  have counted := congrArg (List.countP is) same
  rwa [List.countP_map, List.countP_map] at counted

/-- Results in any order give the same counts. -/
theorem result_play (inOrder : Bool) {events : List Event} (schedule : IsSchedule lines.length events) :
    (play inOrder addLoss (outcomes l index p lines) (start 0) events).result =
      .ok (tally l index p lines) := by
  have emitted : (lines.countP fun line => (taskOutcome (contribution l index p line)).isOutput) =
      (contributions l index p lines).length := by
    rw [contributions, List.length_filterMap_eq_countP]
    refine List.countP_congr fun line _ => ?_
    cases contribution l index p line <;> rfl
  have skipped : (lines.countP fun line => (taskOutcome (contribution l index p line)).isSkipped) = 0 := by
    refine List.countP_eq_zero.2 fun line _ => ?_
    cases contribution l index p line <;> exact Bool.false_ne_true
  have total := @Outcome.countP_add_countP_add_countP _ (outcomes l index p lines) (List.range' 1 lines.length)
  rw [(play_spec inOrder addLoss _ 0 schedule).2.2, Sink.serve_failure fun _ _ _ => rfl]
  rw [List.length_range', countP_outcomes, countP_outcomes, countP_outcomes, emitted, skipped] at total
  simp only [countP_outcomes, emitted, skipped, tally]
  congr 2
  omega

/-- A run over lines none of which stops the program. -/
theorem run_eq {m : Type → Type} [Monad m] [LawfulMonad m] (pipeline : Pipeline)
    (calm : ∀ line ∈ lines, contribution l index p line ≠ .error .indexOutOfBounds) :
    ∃ loss, pipeline.run (work (m := m) l index p) addLoss Parameters.empty 0 lines =
      pure (.ok (tally l index p lines),
        Parameters.empty.adjustAll ((contributions l index p lines).flatMap (slopes l)), loss) := by
  have works (i : Nat) (line : String) (sum : Parameters K) (found : lines[i]? = some line) :
      ∃ r, work (m := m) l index p (1 + i) line sum =
          pure (r, addTo l sum (contribution l index p line)) ∧
        Pipeline.outcome r = .ok (outcomes l index p lines (1 + i)) := by
    refine ⟨_, work_eq (1 + i) sum, ?_⟩
    rw [outcome_taskResult (calm line (List.mem_of_getElem? found)), outcomes, Nat.add_sub_cancel_left, found]
    rfl
  -- the program takes the lines in turn, which is one of the orders in which results may arrive
  have runs := pipeline.runFrom_eq_play_after addLoss
    (fun _ line sum => addTo l sum (contribution l index p line)) 1 works Parameters.empty (start 0)
  have sums : (lines.zipIdx 1).foldl (fun sum line => addTo l sum (contribution l index p line.1))
        Parameters.empty =
      Parameters.empty.adjustAll ((contributions l index p lines).flatMap (slopes l)) := by
    rw [← foldl_addTo]
    conv_rhs => rw [← List.zipIdx_map_fst 1 lines, List.foldl_map]
  rw [sums] at runs
  rw [← result_play pipeline.keepOrder (isSchedule_inTurn lines.length), Pipeline.run, runs]
  exact ⟨_, pure_bind ..⟩

/-- A run over lines one of which stops the program. -/
theorem run_stops {m : Type → Type} [Monad m] [LawfulMonad m] (pipeline : Pipeline)
    (stops : ∃ line ∈ lines, contribution l index p line = .error .indexOutOfBounds) :
    ∃ sum loss, pipeline.run (work (m := m) l index p) addLoss Parameters.empty 0 lines =
      pure (.error .indexOutOfBounds, sum, loss) := by
  have works (task : Nat) (line : String) (sum : Parameters K) :
      ∃ sum', work (m := m) l index p task line sum =
        pure (taskResult (contribution l index p line), sum') := ⟨_, work_eq task sum⟩
  -- whichever line is the first to stop the program, the error is the same
  obtain ⟨sum, d, runs⟩ := pipeline.runFrom_stopped addLoss works lines 1 Parameters.empty (start 0) none
  have first : (lines.findSome? fun line => Pipeline.stopOf (taskResult (contribution l index p line))) =
      some .indexOutOfBounds := by
    obtain ⟨line, member, failed⟩ := stops
    cases found : lines.findSome? fun line => Pipeline.stopOf (taskResult (contribution l index p line)) with
    | none =>
      have none := List.findSome?_eq_none_iff.1 found line member
      rw [failed] at none
      cases none
    | some e =>
      obtain ⟨_, -, isError⟩ := List.exists_of_findSome?_eq_some found
      rw [stopOf_taskResult isError]
  rw [first] at runs
  rw [Pipeline.run, runs]
  exact ⟨_, _, pure_bind ..⟩

end

/-! ### Averages -/

theorem get?_mean {K : Type} [Scalar K] (sum : Parameters K) (count : Nat) (name : String) :
    (mean sum count).get? name = (sum.get? name).map (· / Scalar.ofNat (max count 1)) := by
  rw [mean, get?_foldl_update nodup_names, getD]
  cases found : sum.get? name with
  | none => rw [if_neg (by rw [mem_names, found]; exact Bool.false_ne_true)]; rfl
  | some weight => rw [if_pos (by rw [mem_names, found]; rfl)]; rfl

variable {l : Learner ℝ} {index : Option FeatureTable} {p : Parameters ℝ} {lines lines' : List String}
  {parts parts' : List (TrainingExample × LossValue ℝ)} {name : String}

/-- The average of the slopes by a feature, unless the feature is trainable in none of the examples. -/
noncomputable def average (l : Learner ℝ) (parts : List (TrainingExample × LossValue ℝ)) (name : String) :
    Option ℝ :=
  if name ∈ (parts.flatMap (slopes l)).map (·.1) then
    some ((parts.length : ℝ)⁻¹ * (parts.map fun part => total (slopes l part) name).sum)
  else none

/-- Sums of the slopes of examples, each added once in whatever order, over the number of examples. -/
theorem get?_mean_adjustAll {amounts : List (String × ℝ)}
    (all : amounts.Perm (parts.flatMap (slopes l))) :
    (mean (Parameters.empty.adjustAll amounts) parts.length).get? name = average l parts name := by
  have trained : name ∈ amounts.map (·.1) ↔ name ∈ (parts.flatMap (slopes l)).map (·.1) :=
    (all.map (·.1)).mem_iff
  rw [get?_mean, get?_adjustAll, average]
  by_cases occurs : name ∈ amounts.map (·.1)
  · -- an example that has the feature is one that counts
    have counted : 1 ≤ parts.length := by
      obtain ⟨amount, isGiven, -⟩ := List.mem_map.1 (trained.1 occurs)
      obtain ⟨part, member, -⟩ := List.mem_flatMap.1 isGiven
      exact List.length_pos_of_mem member
    rw [if_pos occurs, if_pos (trained.1 occurs), total_of_perm all, total_flatMap, Option.map_some,
      Nat.max_eq_left counted, getD, get?_empty]
    refine congrArg some (Eq.trans ?_ (div_eq_inv_mul _ _))
    exact congrArg (fun sum : ℝ => sum / parts.length) (zero_add _)
  · rw [if_neg occurs, get?_empty, if_neg (trained.not.1 occurs)]
    rfl

/-- The average does not depend on the order of the examples. -/
theorem average_of_perm (same : parts.Perm parts') : average l parts name = average l parts' name := by
  have trained : name ∈ (parts.flatMap (slopes l)).map (·.1) ↔ name ∈ (parts'.flatMap (slopes l)).map (·.1) :=
    ((same.flatMap_right (slopes l)).map (·.1)).mem_iff
  refine if_congr trained (congrArg some ?_) rfl
  rw [(same.map _).sum_eq, same.length_eq]

/-- Nor does it change if all of them are repeated. -/
theorem average_replicate (times : Nat) :
    average l (List.replicate (times + 1) parts).flatten name = average l parts name := by
  have member (part : TrainingExample × LossValue ℝ) :
      part ∈ (List.replicate (times + 1) parts).flatten ↔ part ∈ parts := by
    rw [List.mem_flatten]
    exact ⟨fun ⟨_, again, isPart⟩ => List.eq_of_mem_replicate again ▸ isPart,
      fun isPart => ⟨parts, List.mem_replicate.2 ⟨Nat.succ_ne_zero _, rfl⟩, isPart⟩⟩
  have trained : name ∈ ((List.replicate (times + 1) parts).flatten.flatMap (slopes l)).map (·.1) ↔
      name ∈ (parts.flatMap (slopes l)).map (·.1) := by
    simp only [List.mem_map, List.mem_flatMap, member]
  refine if_congr trained (congrArg some ?_) rfl
  -- the sum and the number of the examples grow alike
  rw [List.map_flatten, List.map_replicate, List.sum_flatten, List.map_replicate, List.sum_replicate,
    nsmul_eq_mul, List.length_flatten, List.map_replicate, List.sum_replicate, smul_eq_mul, Nat.cast_mul,
    mul_inv, mul_mul_mul_comm, inv_mul_cancel₀ (Nat.cast_ne_zero.2 (Nat.succ_ne_zero times)), one_mul]

/-- A file that holds the lines of another, each as many times, in whatever order, has the same average. -/
theorem average_of_lines {times : Nat} (same : lines'.Perm (List.replicate (times + 1) lines).flatten) :
    average l (contributions l index p lines') name = average l (contributions l index p lines) name := by
  have repeated : (contributions l index p lines').Perm
      (List.replicate (times + 1) (contributions l index p lines)).flatten := by
    unfold contributions
    rw [← List.map_replicate, ← List.filterMap_flatten]
    exact same.filterMap _
  rw [average_of_perm repeated, average_replicate]

/-- What a line adds by a feature that it has to train is the slope of its loss, for one label. -/
theorem total_slopes {line : String} {part : TrainingExample × LossValue ℝ} {k : Nat}
    (counts : contribution l index p line = .ok part)
    (trains : (k, name) ∈ l.core.trainable part.1.graph) :
    total (slopes l part) name = Learner.slopePerLabel part.1 part.2 k := by
  obtain ⟨e, parsed, counts⟩ := Except.bind_eq_ok.1 counts
  obtain ⟨v, -, equal⟩ := Except.bind_eq_ok.1 counts
  cases equal
  obtain ⟨⟨fields, parsedGraph⟩, -⟩ := TrainingExample.fields_of_parse? parsed
  have distinct : (e.graph.numberedFeatures.map (·.2)).Nodup := by
    rw [LearningGraph.numberedFeatures, List.map_snd_zip (by simp)]
    exact LearningGraph.nodup_features_of_parse? parsedGraph
  refine total_of_mem ?_ (List.mem_map.2 ⟨_, trains, rfl⟩)
  rw [slopes, List.map_map]
  exact distinct.sublist (List.filter_sublist.map _)

variable {grounded text : String} {s : Store}

theorem groundedLines_apply (found : s.get? grounded = some text) :
    groundedLines (m := StateM Store) grounded s = (.ok (Pipeline.workLines text), s) := by
  rw [groundedLines, bind_apply, lift_apply, Store.read_apply, found]
  rfl

/-- Behind the reading of files there is only the run over the lines. -/
theorem find_apply (f : GradientFinder ℝ)
    (indexed : featureIndex (m := StateM Store) grounded s = (.ok index, s))
    (found : s.get? grounded = some text) {r : Except Error TaskCounts} {sum : Parameters ℝ} {loss : ℝ}
    (runs : f.pipeline.run (work (m := StateM Store) f.learner index p) addLoss Parameters.empty 0
      (Pipeline.workLines text) = pure (r, sum, loss)) :
    f.find (m := StateM Store) grounded p s = (r.map fun counts => (mean sum counts.emitted, counts), s) := by
  -- a copy of the learner differs in its noise alone
  change f.pipeline.run (work (m := StateM Store) f.learner.copy.1 index p)
    (fun _ loss total => (.ok (), total + loss)) _ _ _ = _ at runs
  rw [find, bind_of_ok indexed, bind_of_ok (groundedLines_apply found), bind_apply, lift_apply, runs]
  cases r <;> rfl

/-- Whatever the order in which the lines of a file are done, in which their slopes are added and in which
their results arrive, the gradient is the average over the lines that count, and the counts are the same. The
program takes the lines in turn. It leaves the directory as it was. -/
theorem find_averages (f : GradientFinder ℝ)
    (indexed : featureIndex (m := StateM Store) grounded s = (.ok index, s))
    (found : s.get? grounded = some text)
    (calm : ∀ line ∈ Pipeline.workLines text, ∀ e, TrainingExample.parse? line index = .ok e →
      ¬f.learner.StopsAt e) :
    let lines := Pipeline.workLines text
    let parts := contributions f.learner index p lines
    let counts := tally f.learner index p lines
    (∀ events amounts, IsSchedule lines.length events → amounts.Perm (parts.flatMap (slopes f.learner)) →
      (play f.pipeline.keepOrder addLoss (outcomes f.learner index p lines) (start 0) events).result =
          .ok counts ∧
        ∀ name, (mean (Parameters.empty.adjustAll amounts) counts.emitted).get? name =
          average f.learner parts name) ∧
    ∃ gradient, f.find (m := StateM Store) grounded p s = (.ok (gradient, counts), s) ∧
      ∀ name, gradient.get? name = average f.learner parts name := by
  intro lines parts counts
  refine ⟨fun events amounts schedule all => ⟨result_play _ schedule, fun _ => get?_mean_adjustAll all⟩, ?_⟩
  have steady : ∀ line ∈ lines, contribution f.learner index p line ≠ .error .indexOutOfBounds := by
    intro line member stops
    obtain ⟨e, parsed, stops⟩ := contribution_stops_iff.1 stops
    exact calm line member e parsed stops
  obtain ⟨loss, runs⟩ := run_eq (m := StateM Store) f.pipeline steady
  exact ⟨_, find_apply f indexed found runs, fun _ => get?_mean_adjustAll (.refl _)⟩

/-- A line that stops the program leaves no gradient. -/
theorem find_stops (f : GradientFinder ℝ)
    (indexed : featureIndex (m := StateM Store) grounded s = (.ok index, s))
    (found : s.get? grounded = some text)
    (stops : ∃ line ∈ Pipeline.workLines text, ∃ e, TrainingExample.parse? line index = .ok e ∧
      f.learner.StopsAt e) :
    f.find (m := StateM Store) grounded p s = (.error .indexOutOfBounds, s) := by
  obtain ⟨line, member, stops⟩ := stops
  obtain ⟨sum, loss, runs⟩ := run_stops (m := StateM Store) (l := f.learner) (p := p) f.pipeline
    ⟨line, member, contribution_stops_iff.2 stops⟩
  exact find_apply f indexed found runs

/-- A file with one line, whose graph has no nodes. -/
def nodelessFile : Store := Store.empty.put "train.grounded" "q\t\t\t0\t0\t0\n"

/-- If walks go by rounds, this line counts and adds nothing. If they go by local push, it stops the program. -/
theorem find_nodelessFile (f : GradientFinder ℝ) :
    (f.learner.kind = .rounds →
      ∃ gradient, f.find (m := StateM Store) "train.grounded" p nodelessFile =
          (.ok (gradient, { submitted := 1, emitted := 1, skipped := 0, failed := 0 }), nodelessFile) ∧
        ∀ name, gradient.get? name = none) ∧
    (f.learner.kind = .push → f.learner.core.options.isTooDeep 1 = false →
      f.find (m := StateM Store) "train.grounded" p nodelessFile = (.error .indexOutOfBounds, nodelessFile)) := by
  have indexed : featureIndex (m := StateM Store) "train.grounded" nodelessFile = (.ok none, nodelessFile) := rfl
  have found : nodelessFile.get? "train.grounded" = some "q\t\t\t0\t0\t0\n" := by decide +kernel
  have lines : Pipeline.workLines "q\t\t\t0\t0\t0\n" = ["q\t\t\t0\t0\t0"] := by decide +kernel
  obtain ⟨e, parsed, nodeless, featureless⟩ : ∃ e, TrainingExample.parse? "q\t\t\t0\t0\t0" none = .ok e ∧
      e.graph.nodeCount = 0 ∧ e.graph.features = #[] := ⟨_, rfl, rfl, rfl⟩
  constructor
  · intro isRounds
    obtain ⟨t, loaded⟩ := LearnerCore.load_nodeless (c := f.learner.core) (p := p) nodeless
    obtain ⟨scores, walks⟩ : ∃ scores, f.learner.walk e t = .ok scores := by
      rw [Learner.walk, isRounds]
      exact ⟨_, rfl⟩
    have counts : contribution f.learner none p "q\t\t\t0\t0\t0" =
        .ok (e, f.learner.core.loss.evaluate e scores) :=
      Except.bind_eq_ok.2 ⟨e, parsed, Except.bind_eq_ok.2 ⟨_, Except.bind_eq_ok.2 ⟨t, loaded,
        Except.bind_eq_ok.2 ⟨scores, walks, rfl⟩⟩, rfl⟩⟩
    have parts : contributions f.learner none p ["q\t\t\t0\t0\t0"] =
        [(e, f.learner.core.loss.evaluate e scores)] := by
      rw [contributions, List.filterMap_cons, counts]
      rfl
    obtain ⟨-, gradient, answers, averages⟩ := find_averages (p := p) f indexed found
      fun _ _ _ _ ⟨isPush, _⟩ => nomatch isRounds.symm.trans isPush
    rw [lines, tally, parts] at answers
    rw [lines, parts] at averages
    refine ⟨gradient, answers, fun name => ?_⟩
    rw [averages, average, if_neg]
    simp [slopes, LearnerCore.trainable, LearningGraph.numberedFeatures, featureless]
  · intro isPush shallow
    refine find_stops f indexed found ⟨_, by rw [lines]; exact List.mem_singleton_self _, e, parsed, ?_⟩
    exact ⟨isPush, nodeless, shallow⟩

end GradientFinder

end ProofWalk
