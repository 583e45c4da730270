import ProofWalk.Proofs.Relation.Answers

/-!
# Plain rules

A rule is plain if none of its features ranges over goals. Such a rule always reports a feature, so
that no move by it is lost, and where the rules of a goal are plain the labelled steps are exactly the
steps of resolution with the rules and with the facts that the relations hold.

## Main results

* `Theory.children_perm` — the moves by plain rules lead to the resolvents one step away
-/

namespace ProofWalk

/-- Whether no feature of a rule ranges over goals. -/
def Rule.isPlain (rule : Rule) : Bool := rule.features.all (·.findall.isEmpty)

theorem FeatureMap.insert_ne_nil (name : String) (weight : Float) (m : FeatureMap) :
    m.insert name weight ≠ [] := by
  unfold FeatureMap.insert
  cases m with
  | nil => simp [FeatureMap.alter]
  | cons first rest =>
    rw [FeatureMap.alter]
    split
    · simp
    · split <;> simp

/-- Where no goal is left there is no step. -/
theorem Resolvent.steps_eq_nil {r : Resolvent} (ended : r.goals = []) (rules : List Rule)
    (facts : List Fact) : r.steps rules facts = [] := by
  have stuck : ∀ head body next, r.resolve? head body next = none := fun head body next => by
    rw [Resolvent.resolve?, ended]
  simp [Resolvent.steps, Resolvent.byRule?, Resolvent.byTuple?, stuck]

namespace Theory

variable {nested : Root → Resolvent → Except Error FeatureMap} {root : Root} {r : Resolvent}

theorem addReport_ne_nil {regs : Registers} {value : Substitution} {next : Nat}
    {found found' : FeatureMap} {f : FeatureTemplate} (plain : f.findall.isEmpty)
    (added : addReport nested regs value next found f = .ok found') : found' ≠ [] := by
  rw [addReport, if_pos plain] at added
  obtain ⟨⟨name, weight⟩, -, equal⟩ := Except.bind_eq_ok.1 added
  cases equal
  exact FeatureMap.insert_ne_nil name weight found

/-- Features that are reported one after the other stay. -/
theorem foldlM_addReport_ne_nil {regs : Registers} {value : Substitution} {next : Nat}
    {features : List FeatureTemplate} {found found' : FeatureMap}
    (plain : ∀ f ∈ features, f.findall.isEmpty) (some : found ≠ [] ∨ features ≠ [])
    (added : features.foldlM (addReport nested regs value next) found = .ok found') :
    found' ≠ [] := by
  induction features generalizing found with
  | nil =>
    cases added
    exact some.resolve_right fun other => other rfl
  | cons f rest ih =>
    rw [List.foldlM_cons] at added
    obtain ⟨first, addedFirst, others⟩ := Except.bind_eq_ok.1 added
    exact ih (fun f' member => plain f' (List.mem_cons_of_mem f member))
      (.inl (addReport_ne_nil (plain f (by simp)) addedFirst)) others

/-- A plain rule reports something. -/
theorem label_ne_nil {rule : Rule} {number next : Nat} {value : Substitution} {found : FeatureMap}
    (plain : rule.isPlain) (labelled : label nested rule number value next = .ok found) :
    found ≠ [] := by
  unfold label at labelled
  split at labelled
  · cases labelled
    exact FeatureMap.insert_ne_nil _ _ _
  · rename_i some
    refine foldlM_addReport_ne_nil (fun f member => ?_) (.inr (by simpa using some)) labelled
    exact List.all_eq_true.1 plain f member

/-- A derivation that ends still reports something, be it the closing feature. -/
theorem finish_ne_nil {features reported : FeatureMap} (some : features ≠ [])
    (finished : r.finish root features = .ok reported) : reported ≠ [] := by
  unfold Resolvent.finish at finished
  split at finished
  · obtain ⟨⟨name, weight⟩, -, equal⟩ := Except.bind_eq_ok.1 finished
    cases equal
    exact List.cons_ne_nil (name, weight) []
  · cases finished
    exact some

/-- The moves by alternatives lead where the alternatives lead. -/
theorem map_child_movesBy {α : Type} {move : α → Except Error (Option ProofMove)}
    (lead : α → Option Resolvent) {alternatives : List α} {moves : List ProofMove}
    (each : ∀ a ∈ alternatives, ∀ m, move a = .ok m → m.map (·.child) = lead a)
    (found : movesBy move alternatives = .ok moves) :
    moves.map (·.child) = alternatives.filterMap lead := by
  induction alternatives generalizing moves with
  | nil =>
    cases found
    rfl
  | cons a rest ih =>
    obtain ⟨first, here, others⟩ := Except.bind_eq_ok.1 found
    obtain ⟨later, foundLater, equal⟩ := Except.bind_eq_ok.1 others
    cases equal
    have leads := each a (by simp) first here
    rw [List.map_append, ih (fun b member => each b (List.mem_cons_of_mem a member)) foundLater,
      List.filterMap_cons, ← leads]
    cases first <;> rfl

/-- A move by a plain rule leads where the rule leads. -/
theorem child_byClause {clause : Rule × Nat} (plain : clause.1.isPlain) {m : Option ProofMove}
    (found : byClause nested root r clause = .ok m) :
    m.map (·.child) = (r.byRule? clause.1).map (·.2) := by
  unfold byClause at found
  cases resolved : r.byRule? clause.1 with
  | none =>
    rw [resolved] at found
    cases found
    rfl
  | some result =>
    rw [resolved] at found
    obtain ⟨reported, labelled, equal⟩ := Except.bind_eq_ok.1 found
    obtain ⟨features, isLabel, finished⟩ := Except.bind_eq_ok.1 labelled
    have some : reported.isEmpty = false := by
      simpa using finish_ne_nil (label_ne_nil plain isLabel) finished
    rw [some] at equal
    cases equal
    rfl

/-- A move by a row leads where its tuple leads. -/
theorem child_byRow {row : Row} {m : Option ProofMove} (found : byRow root r row = .ok m) :
    m.map (·.child) = r.byValues? row.values := by
  unfold byRow at found
  cases resolved : r.byValues? row.values with
  | none =>
    rw [resolved] at found
    cases found
    rfl
  | some child =>
    rw [resolved] at found
    obtain ⟨reported, -, equal⟩ := Except.bind_eq_ok.1 found
    cases equal
    rfl

variable {g : Goal} {rest : List Goal}

/-- A rule of another predicate does not resolve the goal. -/
theorem label_of_byRule? (goals : r.goals = g :: rest) {rule : Rule}
    {result : Substitution × Resolvent} (resolved : r.byRule? rule = some result) :
    rule.lhs.label = g.label := by
  rw [Resolvent.byRule?, Resolvent.resolve?, goals] at resolved
  simp only at resolved
  split at resolved
  · rename_i same
    exact Goal.label_eq_iff.2 ⟨same.1, by simpa using same.2⟩
  · cases resolved

/-- The moves by the rules of a predicate lead where the rules lead. -/
theorem children_byClauses (goals : r.goals = g :: rest) {clauses : List (Rule × Nat)}
    (plain : ∀ clause ∈ clauses, clause.1.lhs.label = g.label → clause.1.isPlain)
    {moves : List ProofMove}
    (found : movesBy (byClause nested root r)
      (clauses.filter fun clause => clause.1.lhs.label = g.label) = .ok moves) :
    moves.map (·.child) =
      (clauses.map (·.1)).filterMap fun rule => (r.byRule? rule).map (·.2) := by
  have leads := map_child_movesBy (fun clause => (r.byRule? clause.1).map (·.2))
    (fun clause member m => child_byClause (plain clause (List.mem_filter.1 member).1
      (of_decide_eq_true (List.mem_filter.1 member).2)))
    found
  rw [leads, List.filterMap_filter, List.filterMap_map]
  refine List.filterMap_congr fun clause _ => ?_
  split
  · rfl
  · rename_i other
    cases resolved : r.byRule? clause.1 with
    | none => simp [resolved]
    | some result => exact absurd (decide_eq_true (label_of_byRule? goals resolved)) other

/-- The moves by relations lead where the facts lead that the relations hold. -/
theorem children_byRelations (goals : r.goals = g :: rest) {relations : List Relation}
    {tables : List (List Fact)} (stores : List.Forall₂ Relation.Stores relations tables)
    (fits : ∀ f ∈ tables.flatten, f.args.length < Text.wordLimit) {moves : List ProofMove}
    (found : byRelations root r g relations = .ok moves) :
    (moves.map (·.child)).Perm
      (tables.flatten.filterMap fun f => r.byTuple? f.functor f.args) := by
  induction stores generalizing moves with
  | nil =>
    cases found
    exact .refl _
  | @cons relation facts relations tables first others ih =>
    rw [List.flatten_cons] at fits
    have fitsHere : ∀ f ∈ facts, f.args.length < Text.wordLimit :=
      fun f member => fits f (List.mem_append_left _ member)
    have fitsRest : ∀ f ∈ tables.flatten, f.args.length < Text.wordLimit :=
      fun f member => fits f (List.mem_append_right _ member)
    rw [List.flatten_cons, List.filterMap_append]
    unfold byRelations at found
    split at found
    · obtain ⟨rows, looked, found⟩ := Except.bind_eq_ok.1 found
      obtain ⟨here, foundHere, found⟩ := Except.bind_eq_ok.1 found
      obtain ⟨later, foundLater, equal⟩ := Except.bind_eq_ok.1 found
      cases equal
      have leads := map_child_movesBy (fun row => r.byValues? row.values)
        (fun row _ m => child_byRow) foundHere
      rw [List.map_append, leads]
      exact (first.byTuple?_perm fitsHere goals looked).append (ih fitsRest foundLater)
    · rename_i unclaimed
      have none : (facts.filterMap fun f => r.byTuple? f.functor f.args) = [] := by
        rw [List.filterMap_eq_nil_iff]
        intro f member
        refine Option.eq_none_iff_forall_ne_some.2 fun child resolved => ?_
        exact first.unclaimed unclaimed f member
          (agrees_of_byTuple? goals (fitsHere f member) resolved).1
      rw [none, List.nil_append]
      exact ih fitsRest found

/-- If the rules of the leftmost goal are plain, the moves lead to the resolvents one step away. -/
theorem children_perm {t : Theory} {rules : List Rule} (rulesOf : t.clauses.map (·.1) = rules)
    (plain : ∀ g rest, r.goals = g :: rest → ∀ rule ∈ rules, rule.lhs.label = g.label → rule.isPlain)
    {tables : List (List Fact)} (stores : List.Forall₂ Relation.Stores t.relations tables)
    (fits : ∀ f ∈ tables.flatten, f.args.length < Text.wordLimit) {moves : List ProofMove}
    (found : t.movesWith nested root r = .ok moves) :
    (moves.map (·.child)).Perm (r.steps rules tables.flatten) := by
  rw [Theory.movesWith] at found
  cases goals : r.goals with
  | nil =>
    rw [goals] at found
    cases found
    rw [Resolvent.steps_eq_nil goals]
    exact .refl _
  | cons g rest =>
    rw [goals] at found
    obtain ⟨byRules, foundRules, found⟩ := Except.bind_eq_ok.1 found
    obtain ⟨others, foundOthers, equal⟩ := Except.bind_eq_ok.1 found
    cases equal
    have children := children_byClauses goals (fun clause member =>
      plain g rest goals clause.1 (rulesOf ▸ List.mem_map_of_mem member)) foundRules
    rw [List.map_append, children, rulesOf]
    exact (children_byRelations goals stores fits foundOthers).append_left _

end Theory

end ProofWalk
