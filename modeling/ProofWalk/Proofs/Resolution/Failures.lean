import ProofWalk.Proofs.Relation.Answers
import ProofWalk.Proofs.Resolution.Moves

/-!
# Failures of moves

A derivation is stopped by its features only: a variable that a feature names stands for no constant,
or the weight of a feature is no number. Clauses and relations always answer, however deep the search
that asks them. Beyond that, searches may lie too deep in each other.

## Main definitions

* `FailsOnly` — a computation may fail with errors of one kind only
* `Error.OfReport` — what may go wrong with a report
* `Error.OfMove` — what may go wrong with a move

## Main results

* `Theory.moves_fail` — moves fail with errors of reports, or where searches lie too deep in each other
-/

namespace ProofWalk

/-- What may go wrong with a report: a variable that the feature names stands for no constant, or its
weight is no number. -/
inductive Error.OfReport : Error → Prop
  | unbound (register : Int) : OfReport (.unboundFeatureVariable register)
  | weight (text : String) : OfReport (.badWeight text)

/-- What may go wrong with a move: a report, or searches lie more than `limit` deep in each other. -/
inductive Error.OfMove (limit : Nat) : Error → Prop
  | report {e : Error} (ofReport : e.OfReport) : OfMove limit e
  | nesting : OfMove limit (.nestingTooDeep limit)

/-- A computation may fail with errors of one kind only. -/
def FailsOnly {α : Type} (kind : Error → Prop) (x : Except Error α) : Prop := ∀ e, x = .error e → kind e

namespace FailsOnly

variable {α β : Type} {kind : Error → Prop}

theorem ok (a : α) : FailsOnly kind (.ok a) := by
  rintro e ⟨⟩

theorem error {e : Error} (isKind : kind e) : FailsOnly kind (.error e : Except Error α) := by
  rintro e ⟨⟩
  exact isKind

theorem imp {kind' : Error → Prop} {x : Except Error α} (fails : FailsOnly kind x)
    (more : ∀ e, kind e → kind' e) : FailsOnly kind' x := fun e failed => more e (fails e failed)

theorem bind {x : Except Error α} {f : α → Except Error β} (first : FailsOnly kind x)
    (rest : ∀ a, FailsOnly kind (f a)) : FailsOnly kind (x >>= f) := by
  cases x with
  | error e => exact error (first e rfl)
  | ok a => exact rest a

theorem foldlM {f : β → α → Except Error β} {as : List α} (each : ∀ b, ∀ a ∈ as, FailsOnly kind (f b a))
    (b : β) : FailsOnly kind (as.foldlM f b) := by
  induction as generalizing b with
  | nil => exact ok b
  | cons a rest ih =>
    rw [List.foldlM_cons]
    exact (each b a (by simp)).bind fun b' => ih (fun b a member => each b a (by simp [member])) b'

theorem mapM {f : α → Except Error β} (each : ∀ a, FailsOnly kind (f a)) (as : List α) :
    FailsOnly kind (as.mapM f) := by
  induction as with
  | nil => exact ok []
  | cons a rest ih =>
    rw [List.mapM_cons]
    exact (each a).bind fun b => ih.bind fun bs => ok (b :: bs)

end FailsOnly

/-! ### Reports -/

theorem Registers.argument_fails (regs : Registers) (value : Substitution) (t : Term) :
    FailsOnly Error.OfReport (regs.argument value t) := by
  cases t with
  | constant c => exact .ok c
  | var v =>
    rw [Registers.argument]
    split
    · exact .ok _
    · exact .error (.unbound _)

theorem weightOf_fails (t : Term) : FailsOnly Error.OfReport (weightOf t) := by
  cases t with
  | constant c =>
    change FailsOnly Error.OfReport (readWeight c)
    unfold readWeight
    cases Decimal.read? c with
    | some w => exact .ok w
    | none => exact .error (.weight c)
  | var v => exact .error (.weight _)

theorem FeatureTemplate.report_fails (f : FeatureTemplate) (regs : Registers) (value : Substitution) :
    FailsOnly Error.OfReport (f.report regs value) := by
  refine (FailsOnly.mapM (regs.argument_fails value) _).bind fun args => ?_
  refine FailsOnly.bind ?_ fun weight => .ok _
  cases f.weight with
  | unit => exact .ok 1
  | fixed w => exact weightOf_fails (.constant _)
  | bound v => exact weightOf_fails (value v)

theorem Resolvent.finish_fails (r : Resolvent) (root : Root) (features : FeatureMap) :
    FailsOnly Error.OfReport (r.finish root features) := by
  unfold Resolvent.finish
  split
  · exact (FeatureTemplate.report_fails _ _ _).bind fun report => .ok _
  · exact .ok features

/-! ### Relations -/

/-- A relation that is built in answers whatever goal it is asked about. The filter reads two arguments,
and the label by which it is asked says that there are two. -/
theorem Relation.exists_lookup {relation : Relation} (builtIn : relation.isBuiltIn) (g : Goal) :
    ∃ rows, relation.lookup g.label g.callArgs = .ok rows := by
  cases relation with
  | facts t => exact ⟨_, rfl⟩
  | splitFacts parts => exact ⟨_, rfl⟩
  | edges t => exact ⟨_, rfl⟩
  | fixed label rows => cases builtIn
  | filters =>
    rw [Relation.lookup]
    by_cases isDiffer : g.label = Relation.differ
    · have two : labelArity g.label = 2 := by
        rw [isDiffer]
        decide +kernel
      have count : g.callArgs.length = 2 := by
        have arity : g.arity = 2 := by
          rcases g.labelArity_label_or with same | none <;> omega
        rw [Goal.callArgs, List.length_take, List.length_map, two]
        exact Nat.min_eq_left (Nat.le_of_eq arity.symm)
      rw [if_pos (beq_iff_eq.2 isDiffer)]
      cases bound : g.callArgs.mapM id with
      | none => exact ⟨[], rfl⟩
      | some values =>
        rw [eq_map_some_of_mapM_id bound, List.length_map] at count
        obtain ⟨a, b, rfl⟩ := List.length_eq_two.1 count
        change ∃ rows, Relation.filterRows [a, b] = .ok rows
        rw [Relation.filterRows]
        split <;> exact ⟨_, rfl⟩
    · exact ⟨[], if_neg (by simpa using isDiffer)⟩

/-! ### Moves -/

theorem movesBy_fails {α : Type} {kind : Error → Prop} {move : α → Except Error (Option ProofMove)}
    {as : List α} (each : ∀ a ∈ as, FailsOnly kind (move a)) : FailsOnly kind (movesBy move as) := by
  induction as with
  | nil => exact .ok []
  | cons a rest ih =>
    obtain ⟨first, others⟩ := List.forall_mem_cons.1 each
    exact first.bind fun here => (ih others).bind fun behind => .ok _

namespace Theory

variable {t : Theory} {kind : Error → Prop} {nested : Root → Resolvent → Except Error FeatureMap}

/-- Searches for the features of a rule may fail with errors of one kind only. -/
def SearchesFail (kind : Error → Prop) (nested : Root → Resolvent → Except Error FeatureMap) (rule : Rule) :
    Prop :=
  ∀ f ∈ rule.features, f.findall ≠ [] → ∀ root r value, r.goals = f.findall.map (·.mapVariables value) →
    FailsOnly kind (nested root r)

theorem SearchesFail.of_forall (all : ∀ root r, FailsOnly kind (nested root r)) (rule : Rule) :
    SearchesFail kind nested rule := fun _ _ _ root r _ _ => all root r

/-- What a rule reports fails where one of its features does, or a search for one. -/
theorem label_fails (reports : ∀ e : Error, e.OfReport → kind e) {rule : Rule}
    (searches : SearchesFail kind nested rule) (number : Nat) (value : Substitution) (next : Nat) :
    FailsOnly kind (label nested rule number value next) := by
  unfold label
  split
  · exact .ok _
  · refine FailsOnly.foldlM (fun found f member => ?_) []
    unfold addReport
    split
    · exact ((f.report_fails _ _).imp reports).bind fun report => .ok _
    · rename_i ranges
      exact (searches f member (by simpa using ranges) _ _ value rfl).bind fun more => .ok _

theorem byClause_fails (reports : ∀ e : Error, e.OfReport → kind e) (root : Root) (r : Resolvent)
    {clause : Rule × Nat} (searches : SearchesFail kind nested clause.1) :
    FailsOnly kind (byClause nested root r clause) := by
  unfold byClause
  cases r.byRule? clause.1 with
  | none => exact .ok none
  | some result =>
    refine FailsOnly.bind ?_ fun reported => .ok _
    exact (label_fails reports searches _ _ _).bind fun found =>
      (Resolvent.finish_fails _ root found).imp reports

theorem byRow_fails (root : Root) (r : Resolvent) (row : Row) :
    FailsOnly Error.OfReport (byRow root r row) := by
  unfold byRow
  cases r.byValues? row.values with
  | none => exact .ok none
  | some child => exact (child.finish_fails root []).bind fun reported => .ok _

theorem byRelations_fails {relations : List Relation}
    (builtIn : ∀ relation ∈ relations, relation.isBuiltIn) (root : Root) (r : Resolvent) (g : Goal) :
    FailsOnly Error.OfReport (byRelations root r g relations) := by
  induction relations with
  | nil => exact .ok []
  | cons relation rest ih =>
    have others := ih fun other member => builtIn other (by simp [member])
    rw [byRelations]
    split
    · obtain ⟨rows, answer⟩ := Relation.exists_lookup (builtIn relation (by simp)) g
      rw [answer]
      exact (movesBy_fails fun row _ => byRow_fails root r row).bind fun here =>
        others.bind fun behind => .ok _
    · exact others

/-- A search fails like the moves from the resolvents that it comes to. -/
theorem search_fails {visits : Resolvent → Prop} {root : Root}
    (moves : ∀ r, visits r → FailsOnly kind (t.movesWith nested root r))
    (onward : ∀ r, visits r → ∀ moves, t.movesWith nested root r = .ok moves → ∀ m ∈ moves, visits m.child)
    (depth : Nat) (found : FeatureMap) {r : Resolvent} (first : visits r) :
    FailsOnly kind (t.search nested root depth found r) := by
  induction depth generalizing found r with
  | zero => exact .ok found
  | succ depth ih =>
    rw [search]
    cases moved : t.movesWith nested root r with
    | error e => exact .error (moves r first e moved)
    | ok ms =>
      refine FailsOnly.foldlM (fun found m member => ?_) found
      split
      · exact .ok _
      · exact ih found (onward r first ms moved m member)

variable (builtIn : ∀ relation ∈ t.relations, relation.isBuiltIn)
include builtIn

/-- Moves fail like the reports of the rules for the leftmost goal. -/
theorem movesWith_fails (reports : ∀ e : Error, e.OfReport → kind e) (root : Root) {r : Resolvent}
    (searches : ∀ g ∈ r.goals, ∀ clause ∈ t.clauses, clause.1.lhs.label = g.label →
      SearchesFail kind nested clause.1) : FailsOnly kind (t.movesWith nested root r) := by
  unfold movesWith
  split
  · exact .ok []
  · rename_i g rest goals
    refine FailsOnly.bind (movesBy_fails fun clause member => ?_) fun byRules => ?_
    · obtain ⟨isClause, same⟩ := List.mem_filter.1 member
      exact byClause_fails reports root r
        (searches g (by simp [goals]) clause isClause (of_decide_eq_true same))
    · exact ((byRelations_fails builtIn root r g).imp reports).bind fun others => .ok _

/-- Searches fail like moves, at every depth of nesting. -/
theorem nested_fails (nesting : Nat) (root : Root) (r : Resolvent) :
    FailsOnly (Error.OfMove t.nestingLimit) (t.nested nesting root r) := by
  induction nesting generalizing root r with
  | zero => exact .error .nesting
  | succ nesting ih =>
    refine search_fails (fun r (_ : True) => ?_) (fun _ _ _ _ _ _ => trivial) _ [] trivial
    exact movesWith_fails builtIn (fun _ => .report) root fun _ _ clause _ _ => .of_forall ih clause.1

/-- Moves fail only with errors of reports, or where searches lie too deep in each other. -/
theorem moves_fail (root : Root) (r : Resolvent) :
    FailsOnly (Error.OfMove t.nestingLimit) (t.moves root r) :=
  movesWith_fails builtIn (fun _ => .report) root fun _ _ clause _ _ =>
    .of_forall (nested_fails builtIn _) clause.1

end Theory

end ProofWalk
