import ProofWalk.Proofs.Logic.Labels
import ProofWalk.Proofs.Relation.Edges
import ProofWalk.Proofs.Relation.Facts
import ProofWalk.Proofs.Resolution.Moves
import ProofWalk.Proofs.Results

/-!
# Relations as facts

To ask a relation about a goal is to resolve the goal with the facts that the relation holds. The
relation looks at the constants of the goal only, so it may give a row that does not unify; it leaves
out none that does.

## Main definitions

* `Relation.Stores` — the facts that a relation holds
* `Relation.Fits` — rows are no longer than the goal

## Main results

* `Relation.fits` — what tables and filters answer
* `Relation.Stores.byTuple?_perm` — asking a relation is resolving with its facts
-/

namespace ProofWalk

/-- A relation answers a goal with tuples for some of its last arguments. -/
def Relation.Fits (relation : Relation) : Prop :=
  ∀ (g : Goal) (rows : List Row), relation.lookup g.label g.callArgs = .ok rows →
    ∀ row ∈ rows, row.values.length ≤ g.arity

/-- Whether a relation is read from a file or built in. -/
def Relation.isBuiltIn : Relation → Bool
  | .fixed _ _ => false
  | _ => true

/-- The facts that a relation holds. -/
inductive Relation.Stores : Relation → List Fact → Prop
  | facts {t : FactTable} {facts : List Fact} (stores : t.Stores facts) : Stores (.facts t) facts
  | splitFacts {parts : List FactTable} {facts : List (List Fact)}
      (stores : List.Forall₂ FactTable.Stores parts facts) :
      Stores (.splitFacts parts) facts.flatten
  | edges {t : EdgeTable} {edges : List LabelledEdge} (stores : t.Stores edges) :
      Stores (.edges t) (edges.map LabelledEdge.fact)

/-! ### What relations answer -/

theorem length_callArgs_le (g : Goal) : g.callArgs.length ≤ g.arity := by
  rw [Goal.callArgs, List.length_take, List.length_map]
  exact Nat.min_le_right ..

theorem agrees_of_mem_select {t : IndexedRows} {args : CallArgs} {row : List String × Float}
    (member : row ∈ t.select args) : agrees row.1 args := by
  obtain ⟨i, -, found⟩ := List.mem_filterMap.1 member
  split at found
  · split at found <;> cases found
    assumption
  · cases found

theorem agrees_of_mem_lookup {t : FactTable} {label : String} {args : CallArgs} {row : Row}
    (member : row ∈ t.lookup label args) : agrees row.values args := by
  unfold FactTable.lookup at member
  split at member
  · cases member
  · obtain ⟨found, selected, rfl⟩ := List.mem_map.1 member
    exact agrees_of_mem_select selected

theorem length_of_mem_edges {t : EdgeTable} {label : String} {args : CallArgs} {row : Row}
    (member : row ∈ t.lookup label args) : row.values.length = 2 ∧ args.length = 2 := by
  have binary : ∀ {edges target source}, row ∈ t.rowsFrom edges target source →
      row.values.length = 2 := by
    intro edges target source member
    obtain ⟨e, -, rfl⟩ := List.mem_map.1 member
    rfl
  unfold EdgeTable.lookup at member
  split at member
  · exact ⟨binary member, rfl⟩
  · obtain ⟨source, -, member⟩ := List.mem_flatMap.1 member
    exact ⟨binary member, rfl⟩
  · cases member

theorem values_of_filterRows {values : List String} {rows : List Row}
    (found : Relation.filterRows values = .ok rows) : ∀ row ∈ rows, row.values = values := by
  unfold Relation.filterRows at found
  split at found
  · split at found <;> cases found <;> simp
  · cases found

/-- The rows of tables and filters fit the goals that these are asked about. -/
theorem Relation.fits {relation : Relation} (builtIn : relation.isBuiltIn) : relation.Fits := by
  intro g rows found row member
  have short := length_callArgs_le g
  cases relation with
  | facts t =>
    cases found
    exact Nat.le_trans (Nat.le_of_eq (length_eq_of_agrees (agrees_of_mem_lookup member))) short
  | splitFacts parts =>
    cases found
    obtain ⟨t, -, inTable⟩ := List.mem_flatMap.1 member
    exact Nat.le_trans (Nat.le_of_eq (length_eq_of_agrees (agrees_of_mem_lookup inTable))) short
  | edges t =>
    cases found
    obtain ⟨rowLength, argsLength⟩ := length_of_mem_edges member
    omega
  | filters =>
    rw [Relation.lookup] at found
    split at found
    · split at found
      · rename_i values bound
        rw [eq_map_some_of_mapM_id bound, List.length_map] at short
        rw [values_of_filterRows found row member]
        exact short
      · cases found
        cases member
    · cases found
      cases member
  | fixed label rows => cases builtIn

theorem Relation.Stores.isBuiltIn {relation : Relation} {facts : List Fact}
    (stores : relation.Stores facts) : relation.isBuiltIn := by
  cases stores <;> rfl

theorem Relation.isBuiltIn_of_stores {relations : List Relation} {tables : List (List Fact)}
    (stores : List.Forall₂ Relation.Stores relations tables) :
    ∀ relation ∈ relations, relation.isBuiltIn := by
  induction stores with
  | nil => simp
  | cons first others ih => exact List.forall_mem_cons.2 ⟨first.isBuiltIn, ih⟩

/-! ### Facts that agree -/

/-- A tuple that unifies with the arguments of a goal agrees with their constants. -/
theorem agrees_of_unifies {θ : Substitution} {values : List String} {args : List Term}
    (length : values.length = args.length)
    (unifies : Unifies θ ((values.map Term.constant).zip args)) :
    agrees values (args.map Term.constant?) := by
  induction values generalizing args with
  | nil =>
    obtain rfl := List.length_eq_zero_iff.1 length.symm
    rfl
  | cons v values ih =>
    obtain ⟨a, args, rfl⟩ := List.exists_cons_of_length_eq_add_one length.symm
    have first : Term.constant v = a.mapVariable θ := unifies (.constant v, a) (by simp)
    refine Bool.and_eq_true_iff.2 ⟨?_, ih (Nat.succ.inj length) fun e member =>
      unifies e (List.mem_cons_of_mem _ member)⟩
    cases a with
    | var w => rfl
    | constant c =>
      obtain rfl := Term.constant.inj first
      exact beq_self_eq_true _

variable {r : Resolvent} {g : Goal} {rest : List Goal} {f : Fact}

/-- The fact of a row that agrees resolves the goal as the row does. -/
theorem byTuple?_of_agrees (goals : r.goals = g :: rest) (same : f.label = g.label) :
    r.byTuple? f.functor f.args = r.byValues? f.args := by
  obtain ⟨functor, arity⟩ := predicateLabel_inj.1 same
  rw [Resolvent.byTuple?, Resolvent.resolve?, Resolvent.byValues?, goals]
  simp only
  rw [if_pos ⟨functor, by simpa [Goal.ofConstants, Goal.arity] using arity⟩, Option.map_map,
    arity, Nat.sub_self, List.drop_zero]
  rfl

/-- A fact that does not agree with the constants of a goal does not resolve it. -/
theorem agrees_of_byTuple? (goals : r.goals = g :: rest) (fits : f.args.length < Text.wordLimit)
    {child : Resolvent} (resolved : r.byTuple? f.functor f.args = some child) :
    f.label = g.label ∧ agrees f.args g.callArgs := by
  rw [Resolvent.byTuple?, Resolvent.resolve?, goals] at resolved
  simp only at resolved
  split at resolved
  · rename_i same
    obtain ⟨functor, arity⟩ := same
    have length : f.args.length = g.args.length := by
      simpa [Goal.ofConstants, Goal.arity] using arity
    obtain ⟨_, isSome, -⟩ := Option.map_eq_some_iff.1 resolved
    obtain ⟨θ, solved, -⟩ := Option.map_eq_some_iff.1 isSome
    refine ⟨predicateLabel_inj.2 ⟨functor, length⟩, ?_⟩
    have fitsGoal : g.args.length < Text.wordLimit := length ▸ fits
    rw [Goal.callArgs, Goal.labelArity_label fitsGoal, List.take_of_length_le (by simp [Goal.arity])]
    exact agrees_of_unifies length (unifier?_unifies solved)
  · cases resolved

/-- Only the facts of the goal's predicate that agree with its constants resolve it. -/
theorem filterMap_byTuple? (goals : r.goals = g :: rest) {facts : List Fact}
    (fits : ∀ f ∈ facts, f.args.length < Text.wordLimit) :
    facts.filterMap (fun f => r.byTuple? f.functor f.args) =
      (facts.filter fun f => f.label = g.label ∧ agrees f.args g.callArgs).filterMap
        fun f => r.byValues? f.args := by
  rw [List.filterMap_filter]
  refine List.filterMap_congr fun f member => ?_
  split
  · rename_i agree
    exact byTuple?_of_agrees goals (of_decide_eq_true agree).1
  · rename_i disagree
    refine Option.eq_none_iff_forall_ne_some.2 fun child resolved => disagree ?_
    exact decide_eq_true (agrees_of_byTuple? goals (fits f member) resolved)

/-! ### Asking a relation -/

/-- The rows of one table are its facts that agree. -/
theorem FactTable.Stores.values_eq {t : FactTable} {facts : List Fact} (stores : t.Stores facts)
    (label : String) (args : CallArgs) :
    (t.lookup label args).map (·.values) =
      (facts.filter fun f => f.label = label ∧ agrees f.args args).map (·.args) := by
  rw [stores.lookup_eq, List.map_map]
  rfl

/-- A predicate that a relation does not claim has no facts in it. -/
theorem Relation.Stores.unclaimed {relation : Relation} {facts : List Fact}
    (stores : relation.Stores facts) {label : String} (unclaimed : ¬relation.claims label) :
    ∀ f ∈ facts, f.label ≠ label := by
  cases stores with
  | facts stores => exact fun f member same => unclaimed ((stores.claimed label).2 ⟨f, member, same⟩)
  | @splitFacts parts facts stores =>
    intro f member same
    obtain ⟨part, inFacts, inPart⟩ := List.mem_flatten.1 member
    refine unclaimed (List.any_eq_true.2 ?_)
    clear unclaimed member
    induction stores with
    | nil => cases inFacts
    | @cons t held parts facts first others ih =>
      obtain _ | ⟨_, later⟩ := inFacts
      · exact ⟨t, by simp, (first.claimed label).2 ⟨f, inPart, same⟩⟩
      · obtain ⟨t', inParts, claimed⟩ := ih later
        exact ⟨t', List.mem_cons_of_mem t inParts, claimed⟩
  | edges stores =>
    intro f member same
    obtain ⟨e, inEdges, rfl⟩ := List.mem_map.1 member
    exact unclaimed ((stores.claimed label).2 ⟨e, inEdges, same⟩)

/-- The rows of a relation are its facts that agree. -/
theorem Relation.Stores.values_perm {relation : Relation} {facts : List Fact}
    (stores : relation.Stores facts) {label : String} {args : CallArgs} {rows : List Row}
    (found : relation.lookup label args = .ok rows) :
    (rows.map (·.values)).Perm
      ((facts.filter fun f => f.label = label ∧ agrees f.args args).map (·.args)) := by
  cases stores with
  | facts stores =>
    cases found
    exact .of_eq (stores.values_eq label args)
  | @splitFacts parts facts stores =>
    cases found
    refine .of_eq ?_
    induction stores with
    | nil => rfl
    | @cons t held parts facts first others ih =>
      have here := first.values_eq label args
      rw [List.flatten_cons, List.filter_append, List.map_append, ← ih, ← here]
      by_cases claimed : t.claims label
      · rw [List.filter_cons_of_pos (p := fun t : FactTable => t.claims label) claimed, List.flatMap_cons,
        List.map_append]
      · have none : held.filter (fun f => f.label = label ∧ agrees f.args args) = [] := by
          rw [List.filter_eq_nil_iff]
          exact fun f member agree =>
            claimed ((first.claimed label).2 ⟨f, member, (of_decide_eq_true agree).1⟩)
        rw [List.filter_cons_of_neg (p := fun t : FactTable => t.claims label) claimed, here, none]
        rfl
  | @edges t edges stores =>
    cases found
    refine ((stores.lookup_perm label args).map _).trans (.of_eq ?_)
    rw [List.map_map, List.filter_map, List.map_map]
    rfl

/-- Asking a relation about a goal is resolving the goal with the facts that the relation holds. -/
theorem Relation.Stores.byTuple?_perm {relation : Relation} {facts : List Fact}
    (stores : relation.Stores facts) (fits : ∀ f ∈ facts, f.args.length < Text.wordLimit)
    (goals : r.goals = g :: rest) {rows : List Row}
    (found : relation.lookup g.label g.callArgs = .ok rows) :
    (rows.filterMap fun row => r.byValues? row.values).Perm
      (facts.filterMap fun f => r.byTuple? f.functor f.args) := by
  rw [filterMap_byTuple? goals fits]
  have all := (stores.values_perm found).filterMap fun values => r.byValues? values
  rwa [List.filterMap_map, List.filterMap_map] at all

end ProofWalk
