import Mathlib.Data.List.Perm.Basic
import ProofWalk.Proofs.FeatureMap
import ProofWalk.Proofs.Resolution.Plain

/-!
# Searches and derivations

A search for goals whose predicates have plain rules only, and whose rules lead to no others, finds every
derivation that leaves no goal within its depth, each as often as it is derived. What the search reports
is what the closing feature says at the end of each of them, added up by name.

## Main definitions

* `Resolvent.solved` — the ends of all derivations within a depth that leave no goal
* `Reachable` — the predicates that derivations of goals come to call

## Main results

* `Theory.mem_movesWith` — where a move leads, and what has been reported there
* `Theory.search_solved` — what a search reports
-/

namespace ProofWalk

/-! ### Derivations within a depth -/

namespace Resolvent

variable {r : Resolvent} {rules : List Rule} {facts : List Fact}

/-- The ends of all derivations with at most the given number of steps that leave no goal. -/
def solved (rules : List Rule) (facts : List Fact) (depth : Nat) (r : Resolvent) : List Resolvent :=
  (List.range (depth + 1)).flatMap fun n => (r.derived rules facts n).filter (·.goals.isEmpty)

theorem solved_zero (pending : r.goals ≠ []) : r.solved rules facts 0 = [] := by
  simp [solved, derived, pending]

/-- A derivation that has ended goes no further. -/
theorem solved_of_ended (ended : r.goals = []) (depth : Nat) : r.solved rules facts depth = [r] := by
  have later (n : Nat) : r.derived rules facts (n + 1) = [] := by
    rw [derived, steps_eq_nil ended]
    rfl
  unfold solved
  rw [List.range_succ_eq_map, List.flatMap_cons, List.flatMap_map]
  simp only [Nat.succ_eq_add_one, later]
  simp [derived, ended]

/-- A derivation that has not ended begins with a step. -/
theorem solved_succ_perm (pending : r.goals ≠ []) (depth : Nat) :
    (r.solved rules facts (depth + 1)).Perm ((r.steps rules facts).flatMap (solved rules facts depth)) := by
  have split : r.solved rules facts (depth + 1) = (List.range (depth + 1)).flatMap fun n =>
      (r.steps rules facts).flatMap fun child =>
        (child.derived rules facts n).filter (·.goals.isEmpty) := by
    unfold solved
    rw [List.range_succ_eq_map, List.flatMap_cons, List.flatMap_map]
    simp [derived, pending, List.filter_flatMap]
  rw [split]
  -- by the first step instead of by the number of steps
  generalize r.steps rules facts = children
  induction children with
  | nil => simp
  | cons child children ih =>
    simp only [List.flatMap_cons]
    apply (List.flatMap_append_perm _ _ _).symm.trans
    exact List.Perm.append_left _ ih

end Resolvent

/-! ### Predicates that are called -/

/-- The predicates that resolving goals comes to call: theirs, and those that the bodies of their rules
call in turn. -/
inductive Reachable (rules : List Rule) (goals : List Goal) : String → Prop
  | goal {g : Goal} (member : g ∈ goals) : Reachable rules goals g.label
  | body {rule : Rule} {g : Goal} (called : Reachable rules goals rule.lhs.label) (isRule : rule ∈ rules)
      (member : g ∈ rule.rhs) : Reachable rules goals g.label

/-- Predicates that call each other only. -/
def SelfContained (rules : List Rule) (within : String → Prop) : Prop :=
  ∀ rule ∈ rules, within rule.lhs.label → ∀ g ∈ rule.rhs, within g.label

theorem selfContained_reachable (rules : List Rule) (goals : List Goal) :
    SelfContained rules (Reachable rules goals) :=
  fun _ isRule called _ member => .body called isRule member

variable {within : String → Prop} {rules : List Rule} {r child : Resolvent}

/-- A step by a rule puts its body in the place of a goal of its predicate. -/
theorem SelfContained.byRule? (closed : SelfContained rules within) {rule : Rule} (isRule : rule ∈ rules)
    {θ : Substitution} (resolved : r.byRule? rule = some (θ, child))
    (goals : ∀ g ∈ r.goals, within g.label) : ∀ g ∈ child.goals, within g.label := by
  obtain ⟨first, rest, isFirst⟩ : ∃ first rest, r.goals = first :: rest := by
    cases pending : r.goals with
    | nil =>
      rw [Resolvent.byRule?, Resolvent.resolve?, pending] at resolved
      cases resolved
    | cons first rest => exact ⟨first, rest, rfl⟩
  have called : within rule.lhs.label := by
    rw [Theory.label_of_byRule? isFirst resolved]
    exact goals first (by simp [isFirst])
  rw [Resolvent.byRule?, Resolvent.resolve?, isFirst] at resolved
  simp only at resolved
  split at resolved
  · obtain ⟨δ, -, isChild⟩ := Option.map_eq_some_iff.1 resolved
    cases isChild
    intro g member
    obtain ⟨h, isGoal, rfl⟩ := List.mem_map.1 member
    rw [Goal.label_mapVariables]
    rcases List.mem_append.1 isGoal with body | behind
    · obtain ⟨h, inBody, rfl⟩ := List.mem_map.1 body
      rw [Goal.label_mapVariables]
      exact closed rule isRule called h inBody
    · exact goals h (by rw [isFirst]; exact List.mem_cons_of_mem _ behind)
  · cases resolved

/-- A step by a tuple takes a goal away. -/
theorem within_of_byValues? {values : List String} (resolved : r.byValues? values = some child)
    (goals : ∀ g ∈ r.goals, within g.label) : ∀ g ∈ child.goals, within g.label := by
  unfold Resolvent.byValues? at resolved
  split at resolved
  · cases resolved
  · rename_i first rest isFirst
    obtain ⟨θ, -, isChild⟩ := Option.map_eq_some_iff.1 resolved
    cases isChild
    intro g member
    obtain ⟨h, isGoal, rfl⟩ := List.mem_map.1 member
    rw [Goal.label_mapVariables]
    exact goals h (by rw [isFirst]; exact List.mem_cons_of_mem _ isGoal)

/-! ### Moves -/

namespace Theory

variable {t : Theory} {nested : Root → Resolvent → Except Error FeatureMap} {root : Root}
  {moves : List ProofMove} {m : ProofMove}

theorem mem_movesBy {α : Type} {move : α → Except Error (Option ProofMove)} {alternatives : List α}
    (found : movesBy move alternatives = .ok moves) (member : m ∈ moves) :
    ∃ a ∈ alternatives, move a = .ok (some m) := by
  induction alternatives generalizing moves with
  | nil =>
    cases found
    cases member
  | cons a rest ih =>
    obtain ⟨first, here, others⟩ := Except.bind_eq_ok.1 found
    obtain ⟨later, foundLater, equal⟩ := Except.bind_eq_ok.1 others
    cases equal
    rcases List.mem_append.1 member with isFirst | isLater
    · cases first with
      | none => cases isFirst
      | some m' =>
        obtain rfl := List.mem_singleton.1 isFirst
        exact ⟨a, List.mem_cons_self .., here⟩
    · obtain ⟨b, isAlternative, leads⟩ := ih foundLater isLater
      exact ⟨b, List.mem_cons_of_mem a isAlternative, leads⟩

theorem mem_byRelations {g : Goal} {relations : List Relation}
    (found : byRelations root r g relations = .ok moves) (member : m ∈ moves) :
    ∃ row, byRow root r row = .ok (some m) := by
  induction relations generalizing moves with
  | nil =>
    cases found
    cases member
  | cons relation rest ih =>
    unfold byRelations at found
    split at found
    · obtain ⟨rows, -, found⟩ := Except.bind_eq_ok.1 found
      obtain ⟨here, foundHere, found⟩ := Except.bind_eq_ok.1 found
      obtain ⟨later, foundLater, equal⟩ := Except.bind_eq_ok.1 found
      cases equal
      rcases List.mem_append.1 member with isHere | isLater
      · obtain ⟨row, -, leads⟩ := mem_movesBy foundHere isHere
        exact ⟨row, leads⟩
      · exact ih foundLater isLater
    · exact ih found member

/-- A move is a step by a rule or by a tuple, and what has been reported when it arrives is what the end of
the derivation makes of the features of the step. -/
theorem mem_movesWith (found : t.movesWith nested root r = .ok moves) (member : m ∈ moves) :
    ((∃ rule ∈ t.clauses.map (·.1), ∃ θ, r.byRule? rule = some (θ, m.child)) ∨
        ∃ values, r.byValues? values = some m.child) ∧
      ∃ features, m.child.finish root features = .ok m.reported := by
  unfold movesWith at found
  split at found
  · cases found
    cases member
  · obtain ⟨byRules, foundRules, found⟩ := Except.bind_eq_ok.1 found
    obtain ⟨others, foundOthers, equal⟩ := Except.bind_eq_ok.1 found
    cases equal
    rcases List.mem_append.1 member with isRule | isRow
    · obtain ⟨clause, isClause, leads⟩ := mem_movesBy foundRules isRule
      unfold byClause at leads
      split at leads
      · cases leads
      · rename_i θ child resolved
        obtain ⟨reported, labelled, equal⟩ := Except.bind_eq_ok.1 leads
        obtain ⟨features, -, finished⟩ := Except.bind_eq_ok.1 labelled
        split at equal
        · cases equal
        · cases equal
          exact ⟨.inl ⟨clause.1, List.mem_map_of_mem (List.mem_filter.1 isClause).1, θ, resolved⟩,
            features, finished⟩
    · obtain ⟨row, leads⟩ := mem_byRelations foundOthers isRow
      unfold byRow at leads
      split at leads
      · cases leads
      · rename_i child resolved
        obtain ⟨reported, finished, equal⟩ := Except.bind_eq_ok.1 leads
        cases equal
        exact ⟨.inr ⟨row.values, resolved⟩, [], finished⟩

/-- Moves stay within predicates that call each other only. -/
theorem within_of_movesWith (closed : SelfContained (t.clauses.map (·.1)) within)
    (found : t.movesWith nested root r = .ok moves) (member : m ∈ moves)
    (goals : ∀ g ∈ r.goals, within g.label) : ∀ g ∈ m.child.goals, within g.label := by
  rcases (mem_movesWith found member).1 with ⟨rule, isRule, θ, resolved⟩ | ⟨values, resolved⟩
  · exact closed.byRule? isRule resolved goals
  · exact within_of_byValues? resolved goals

/-! ### Searches -/

/-- A search among plain rules reports the closing feature for every derivation that leaves no goal within
the depth, and nothing else. -/
theorem search_solved {tables : List (List Fact)} (closed : SelfContained (t.clauses.map (·.1)) within)
    (plain : ∀ rule ∈ t.clauses.map (·.1), within rule.lhs.label → rule.isPlain)
    (stores : List.Forall₂ Relation.Stores t.relations tables)
    (fits : ∀ f ∈ tables.flatten, f.args.length < Text.wordLimit) {f : FeatureTemplate}
    (closing : root.closing = some f) {depth : Nat} {found found' : FeatureMap}
    (goals : ∀ g ∈ r.goals, within g.label) (pending : r.goals ≠ [])
    (searched : t.search nested root depth found r = .ok found') :
    ∃ ends reports, ends.Perm (r.solved (t.clauses.map (·.1)) tables.flatten depth) ∧
      List.Forall₂ (fun e report => f.report ⟨root.vars⟩ (e.value root) = .ok report) ends reports ∧
      found' = FeatureMap.merge found reports := by
  induction depth generalizing r found found' with
  | zero =>
    cases searched
    exact ⟨[], [], by rw [Resolvent.solved_zero pending], .nil, rfl⟩
  | succ depth ih =>
    unfold search at searched
    obtain ⟨moves, moved, folded⟩ := Except.bind_eq_ok.1 searched
    have children := children_perm rfl (fun g rest isFirst rule isRule called =>
      plain rule isRule (called ▸ goals g (by simp [isFirst]))) stores fits moved
    -- the ends behind every move in turn
    suffices ∃ ends reports,
        ends.Perm ((moves.map (·.child)).flatMap
          (Resolvent.solved (t.clauses.map (·.1)) tables.flatten depth)) ∧
        List.Forall₂ (fun e report => f.report ⟨root.vars⟩ (e.value root) = .ok report) ends reports ∧
        found' = FeatureMap.merge found reports by
      obtain ⟨ends, reports, isPerm, reported, isFound⟩ := this
      refine ⟨ends, reports, isPerm.trans ?_, reported, isFound⟩
      exact (children.flatMap_right _).trans (Resolvent.solved_succ_perm pending depth).symm
    have each : ∀ m ∈ moves, (∀ g ∈ m.child.goals, within g.label) ∧
        ∃ features, m.child.finish root features = .ok m.reported := fun m member =>
      ⟨within_of_movesWith closed moved member goals, (mem_movesWith moved member).2⟩
    clear moved children searched
    induction moves generalizing found with
    | nil =>
      cases folded
      exact ⟨[], [], .refl _, .nil, rfl⟩
    | cons m moves ihMoves =>
      rw [List.foldlM_cons] at folded
      obtain ⟨middle, here, others⟩ := Except.bind_eq_ok.1 folded
      obtain ⟨⟨labels, features, finished⟩, behind⟩ := List.forall_mem_cons.1 each
      -- what the first move adds, be it the end of a derivation or not
      have first : ∃ ends reports,
          ends.Perm (m.child.solved (t.clauses.map (·.1)) tables.flatten depth) ∧
          List.Forall₂ (fun e report => f.report ⟨root.vars⟩ (e.value root) = .ok report) ends reports ∧
          middle = FeatureMap.merge found reports := by
        by_cases ended : m.child.goals = []
        · rw [if_pos (by simpa using ended)] at here
          cases here
          rw [Resolvent.finish, ended, closing] at finished
          obtain ⟨report, reported, equal⟩ := Except.bind_eq_ok.1 finished
          refine ⟨[m.child], [report], ?_, .cons reported .nil, ?_⟩
          · rw [Resolvent.solved_of_ended ended]
          · rw [← Except.ok.inj equal]
            rfl
        · rw [if_neg (by simpa using ended)] at here
          exact ih labels ended here
      obtain ⟨ends, reports, isPerm, reported, rfl⟩ := first
      obtain ⟨ends', reports', isPerm', reported', rfl⟩ := ihMoves others behind
      refine ⟨ends ++ ends', reports ++ reports', ?_, List.rel_append reported reported', ?_⟩
      · rw [List.map_cons, List.flatMap_cons]
        exact isPerm.append isPerm'
      · rw [FeatureMap.merge_append]

end Theory

end ProofWalk
