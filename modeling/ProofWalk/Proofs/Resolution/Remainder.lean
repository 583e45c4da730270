import ProofWalk.Proofs.Resolution.Forms
import ProofWalk.Proofs.Resolution.Moves

/-!
# What is left of the query

The goals of a resolvent end with the last goals of the query, those that no step has reached yet. A
variable of the query that is still without a register occurs in these only. So resolvents whose
goals are renamings of each other agree on these variables as well: they meet them at the same place,
counted from the end.

## Main definitions

* `Remains` — the goals of a resolvent end with goals of the query

## Main results

* `Theory.child_of_mem_moves` — the shape of the resolvents that moves lead to
* `Remains.step` — what is left of the query after a step
* `Remains.value_eq` — goals determine what the variables without a register stand for
-/

namespace ProofWalk

/-! ### The shape of moves -/

theorem mem_movesBy {α : Type} {move : α → Except Error (Option ProofMove)} {alternatives : List α}
    {moves : List ProofMove} (found : movesBy move alternatives = .ok moves) {m : ProofMove}
    (member : m ∈ moves) : ∃ a ∈ alternatives, move a = .ok (some m) := by
  induction alternatives generalizing moves with
  | nil =>
    cases found
    cases member
  | cons a rest ih =>
    obtain ⟨first, here, others⟩ := Except.bind_eq_ok.1 found
    obtain ⟨later, foundLater, equal⟩ := Except.bind_eq_ok.1 others
    cases equal
    obtain inFirst | inLater := List.mem_append.1 member
    · cases first with
      | none => cases inFirst
      | some m' =>
        obtain rfl := List.mem_singleton.1 inFirst
        exact ⟨a, by simp, here⟩
    · obtain ⟨b, inRest, moved⟩ := ih foundLater inLater
      exact ⟨b, List.mem_cons_of_mem a inRest, moved⟩

/-- A resolvent that a step leads to: the leftmost goal is replaced by others, under a
substitution. -/
def Resolvent.LeadsTo (r child : Resolvent) (body : List Goal) : Prop :=
  ∃ g rest θ, r.goals = g :: rest ∧ child.answer = r.answer.map (·.mapVariable θ) ∧
    child.goals = (body ++ rest).map (·.mapVariables θ)

namespace Theory

variable {nested : Root → Resolvent → Except Error FeatureMap} {root : Root} {r : Resolvent}

theorem leadsTo_of_byClause {clause : Rule × Nat} {m : ProofMove}
    (found : byClause nested root r clause = .ok (some m)) :
    r.LeadsTo m.child (clause.1.rhs.map (·.mapVariables (apart r.next))) := by
  unfold byClause at found
  cases resolved : r.byRule? clause.1 with
  | none =>
    rw [resolved] at found
    cases found
  | some result =>
    rw [resolved] at found
    obtain ⟨reported, -, equal⟩ := Except.bind_eq_ok.1 found
    obtain ⟨-, equal⟩ | ⟨-, equal⟩ := ite_eq_iff.1 (Except.ok.inj equal)
    · cases equal
    · cases equal
      rw [Resolvent.byRule?, Resolvent.resolve?] at resolved
      cases goals : r.goals with
      | nil =>
        rw [goals] at resolved
        cases resolved
      | cons g rest =>
        rw [goals] at resolved
        simp only at resolved
        split at resolved
        · obtain ⟨θ, -, rfl⟩ := Option.map_eq_some_iff.1 resolved
          exact ⟨g, rest, θ, goals, rfl, rfl⟩
        · cases resolved

theorem leadsTo_of_byRow {row : Row} {m : ProofMove} (found : byRow root r row = .ok (some m)) :
    r.LeadsTo m.child [] := by
  unfold byRow at found
  cases resolved : r.byValues? row.values with
  | none =>
    rw [resolved] at found
    cases found
  | some child =>
    rw [resolved] at found
    obtain ⟨reported, -, equal⟩ := Except.bind_eq_ok.1 found
    cases equal
    rw [Resolvent.byValues?] at resolved
    cases goals : r.goals with
    | nil =>
      rw [goals] at resolved
      cases resolved
    | cons g rest =>
      rw [goals] at resolved
      obtain ⟨θ, -, rfl⟩ := Option.map_eq_some_iff.1 resolved
      exact ⟨g, rest, θ, goals, rfl, rfl⟩

theorem leadsTo_of_byRelations {g : Goal} {relations : List Relation} {moves : List ProofMove}
    (found : byRelations root r g relations = .ok moves) {m : ProofMove} (member : m ∈ moves) :
    r.LeadsTo m.child [] := by
  induction relations generalizing moves with
  | nil =>
    cases found
    cases member
  | cons relation rest ih =>
    unfold byRelations at found
    split at found
    · obtain ⟨rows, -, found⟩ := Except.bind_eq_ok.1 found
      obtain ⟨here, foundHere, found⟩ := Except.bind_eq_ok.1 found
      obtain ⟨later, foundLater, equal⟩ := Except.bind_eq_ok.1 found
      cases equal
      obtain inHere | inLater := List.mem_append.1 member
      · obtain ⟨row, -, moved⟩ := mem_movesBy foundHere inHere
        exact leadsTo_of_byRow moved
      · exact ih foundLater inLater
    · exact ih found member

/-- A move puts the body of a rule, or nothing, in the place of the leftmost goal. -/
theorem child_of_mem_moves {t : Theory} {moves : List ProofMove} (found : t.moves root r = .ok moves)
    {m : ProofMove} (member : m ∈ moves) :
    ∃ body, r.LeadsTo m.child body ∧
      ∀ h ∈ body, ∃ clause ∈ t.clauses, ∃ b ∈ clause.1.rhs, h.arity = b.arity := by
  rw [Theory.moves, movesWith] at found
  split at found
  · cases found
    cases member
  · obtain ⟨byRules, foundRules, found⟩ := Except.bind_eq_ok.1 found
    obtain ⟨others, foundOthers, equal⟩ := Except.bind_eq_ok.1 found
    cases equal
    obtain inRules | inOthers := List.mem_append.1 member
    · obtain ⟨clause, inClauses, moved⟩ := mem_movesBy foundRules inRules
      refine ⟨_, leadsTo_of_byClause moved, fun h inBody => ?_⟩
      obtain ⟨b, inRhs, rfl⟩ := List.mem_map.1 inBody
      exact ⟨clause, (List.mem_filter.1 inClauses).1, b, inRhs, Goal.arity_mapVariables _ b⟩
    · exact ⟨[], leadsTo_of_byRelations foundOthers inOthers, fun h inBody => by cases inBody⟩

end Theory

/-! ### The goals of the query -/

theorem Goal.mapVariables_congr {g : Goal} {θ δ : Substitution} (same : ∀ v ∈ g.vars, θ v = δ v) :
    g.mapVariables θ = g.mapVariables δ := by
  unfold mapVariables
  congr 1
  refine List.map_congr_left fun t member => ?_
  cases t with
  | constant c => rfl
  | var v => exact same v (Goal.mem_vars.2 member)

/-- What a variable of the root stands for after a step. -/
theorem Resolvent.value_mapVariable {r child : Resolvent} {root : Root} {θ : Substitution}
    (length : r.answer.length = root.vars.length)
    (answer : child.answer = r.answer.map (·.mapVariable θ)) {v : Variable}
    (known : v ∈ root.vars) : child.value root v = (r.value root v).mapVariable θ := by
  obtain ⟨t, -, found⟩ := exists_lookup_zip length known
  rw [Resolvent.value, Resolvent.value, answer, lookup_zip_map_right, found]
  rfl

/-- The goals of a resolvent end with goals of the query, and the variables without a register occur
neither in the other goals of the query nor in the leftmost goal. -/
structure Remains (q : Query) (r : Resolvent) (silent : List Variable) : Prop where
  answer : r.answer.length = q.vars.length
  known : ∀ v ∈ silent, v ∈ q.vars
  left : ∃ called front rest, q.goals = called ++ rest ∧
    r.goals = front ++ rest.map (·.mapVariables (r.value (.ofQuery q))) ∧
    ∀ v ∈ silent, ∀ g ∈ called, v ∉ g.vars
  leftmost : ∀ g rest, r.goals = g :: rest → ∀ v ∈ silent, r.value (.ofQuery q) v ∉ g.args

/-- The variables that remain without a register do not occur in the leftmost goal. -/
theorem Resolvent.stillSilent_leftmost {r : Resolvent} {root : Root} {silent : List Variable}
    {g : Goal} {rest : List Goal} (goals : r.goals = g :: rest) :
    ∀ v ∈ r.stillSilent root silent, r.value root v ∉ g.args := by
  intro v member
  rw [Resolvent.stillSilent, goals] at member
  exact of_decide_eq_true (List.mem_filter.1 member).2

theorem Resolvent.mem_of_stillSilent {r : Resolvent} {root : Root} {silent : List Variable}
    {v : Variable} (member : v ∈ r.stillSilent root silent) : v ∈ silent := by
  unfold Resolvent.stillSilent at member
  split at member
  · exact member
  · exact (List.mem_filter.1 member).1

/-- At the start all of the query is left. -/
theorem Remains.start (q : Query) :
    Remains q (.ofQuery q) ((Resolvent.ofQuery q).stillSilent (.ofQuery q) q.vars) where
  answer := List.length_map _
  known _ member := Resolvent.mem_of_stillSilent member
  left := by
    refine ⟨[], [], q.goals, rfl, ?_, fun v _ g member => (by cases member)⟩
    have same : q.goals.map (·.mapVariables ((Resolvent.ofQuery q).value (.ofQuery q))) =
        q.goals.map id := by
      refine List.map_congr_left fun g member => ?_
      have values : ∀ v ∈ g.vars, (Resolvent.ofQuery q).value (.ofQuery q) v = .var v :=
        fun v occurs => @Resolvent.value_eq _ (.ofQuery q) _ rfl v
          (Query.mem_vars_of_goal member occurs)
      exact (Goal.mapVariables_congr values).trans g.mapVariables_var
    rw [same, List.map_id]
    rfl
  leftmost _ _ goals := Resolvent.stillSilent_leftmost goals

/-- What is left of the query after a step: the leftmost goal may be one of the query. -/
theorem Remains.step {q : Query} {r child : Resolvent} {silent : List Variable}
    (remains : Remains q r silent) {body : List Goal} (leads : r.LeadsTo child body) :
    Remains q child (child.stillSilent (.ofQuery q) silent) := by
  obtain ⟨g, tail, θ, goals, answer, childGoals⟩ := leads
  obtain ⟨called, front, rest, split, isGoals, absent⟩ := remains.left
  have moved : ∀ gs : List Goal, (∀ h ∈ gs, h ∈ q.goals) →
      (gs.map (·.mapVariables (r.value (.ofQuery q)))).map (·.mapVariables θ) =
        gs.map (·.mapVariables (child.value (.ofQuery q))) := by
    intro gs inQuery
    rw [List.map_map]
    refine List.map_congr_left fun h member => ?_
    rw [Function.comp_apply, Goal.mapVariables_mapVariables]
    refine Goal.mapVariables_congr fun v occurs => ?_
    exact (Resolvent.value_mapVariable remains.answer answer
      (Query.mem_vars_of_goal (inQuery h member) occurs)).symm
  constructor
  case answer => rw [answer, List.length_map, remains.answer]
  case known => exact fun v member => remains.known v (Resolvent.mem_of_stillSilent member)
  case leftmost => exact fun _ _ goals => Resolvent.stillSilent_leftmost goals
  case left =>
    cases front with
    | cons h front =>
      -- a goal that is not the query's is resolved
      obtain ⟨-, isTail⟩ : g = h ∧ tail = _ := List.cons.inj (goals.symm.trans isGoals)
      refine ⟨called, (body ++ front).map (·.mapVariables θ), rest, split, ?_, fun v member =>
        absent v (Resolvent.mem_of_stillSilent member)⟩
      rw [childGoals, isTail, ← moved rest fun h member => split ▸ List.mem_append_right _ member,
        ← List.map_append, List.append_assoc]
      rfl
    | nil =>
      cases rest with
      | nil =>
        rw [goals] at isGoals
        cases isGoals
      | cons h rest =>
        -- the next goal of the query is resolved
        obtain ⟨isGoal, isTail⟩ := List.cons.inj (goals.symm.trans isGoals)
        refine ⟨called ++ [h], body.map (·.mapVariables θ), rest, by simp [split], ?_, ?_⟩
        · have inQuery : ∀ k ∈ rest, k ∈ q.goals := fun k member => by
            rw [split]
            exact List.mem_append_right _ (List.mem_cons_of_mem h member)
          rw [childGoals, isTail, ← moved rest inQuery, ← List.map_append]
        · intro v member k inCalled occurs
          have old := Resolvent.mem_of_stillSilent member
          obtain before | here := List.mem_append.1 inCalled
          · exact absent v old k before occurs
          · obtain rfl := List.mem_singleton.1 here
            refine remains.leftmost g tail goals v old ?_
            rw [isGoal]
            exact List.mem_map.2 ⟨.var v, Goal.mem_vars.1 occurs, rfl⟩

/-- A goal of the query that is left stands in a resolvent at its place counted from the end. -/
theorem Remains.getElem? {q : Query} {r : Resolvent} {silent : List Variable}
    (remains : Remains q r silent) {v : Variable} (member : v ∈ silent) {j : Nat} {g : Goal}
    (found : q.goals[j]? = some g) (occurs : v ∈ g.vars) :
    r.goals[r.goals.length - (q.goals.length - j)]? =
        some (g.mapVariables (r.value (.ofQuery q))) ∧
      q.goals.length - j ≤ r.goals.length := by
  obtain ⟨called, front, rest, split, goals, absent⟩ := remains.left
  have inside := (List.getElem?_eq_some_iff.1 found).1
  have behind : called.length ≤ j := by
    by_contra before
    rw [split, List.getElem?_append_left (by omega)] at found
    exact absent v member g (List.mem_of_getElem? found) occurs
  rw [split, List.getElem?_append_right behind] at found
  have lengths : q.goals.length = called.length + rest.length := by rw [split, List.length_append]
  have lengths' : r.goals.length = front.length + rest.length := by simp [goals]
  have place : r.goals.length - (q.goals.length - j) = front.length + (j - called.length) := by omega
  refine ⟨?_, by omega⟩
  rw [place, goals, List.getElem?_append_right (by omega), Nat.add_sub_cancel_left,
    List.getElem?_map, found]
  rfl

/-- Resolvents whose goals are renamings of each other agree on the variables without a register. -/
theorem Remains.value_eq {q : Query} {r r' : Resolvent} {silent : List Variable}
    {ρ : Variable → Variable} (remains : Remains q r silent) (remains' : Remains q r' silent)
    (same : r.goals.map (·.mapVariables (Substitution.ofVariables ρ)) = r'.goals) {v : Variable}
    (member : v ∈ silent) :
    (r.value (.ofQuery q) v).mapVariable (Substitution.ofVariables ρ) =
      r'.value (.ofQuery q) v := by
  obtain ⟨g, inQuery, occurs⟩ := List.mem_flatMap.1 (mem_firstOccurrences.1 (remains.known v member))
  obtain ⟨j, found⟩ := List.mem_iff_getElem?.1 inQuery
  obtain ⟨here, -⟩ := remains.getElem? member found occurs
  obtain ⟨here', -⟩ := remains'.getElem? member found occurs
  have length : r'.goals.length = r.goals.length := by rw [← same, List.length_map]
  rw [← same, List.length_map, List.getElem?_map, here, Option.map_some, Option.some.injEq] at here'
  have args := congrArg Goal.args here'
  rw [Goal.mapVariables_mapVariables] at args
  exact List.map_inj_left.1 args (.var v) (Goal.mem_vars.1 occurs)

end ProofWalk
