import ProofWalk.Proofs.Machine.Answers
import ProofWalk.Proofs.Resolution.Plain

/-!
# The machine computes derivations

The completed states at the end of all runs of a length hold the answers of all derivations of this
length, each as often as it is derived. The start state stands for the query, and the steps from a
state that stands for a resolvent lead, in some order, to the resolvents one step away.

## Main definitions

* `Machine.ends` — where all runs of a length end

## Main results

* `Machine.outlinks_live` — what the steps from a state are depends on nothing in progress
* `Represents.ends` — the ends of runs stand for the ends of derivations
* `Machine.ends_perm_computedAnswers` — what a query is answered
-/

namespace ProofWalk

/-! ### Runs -/

namespace Exec

variable {α β : Type}

/-- A computation whose result does not depend on what is in progress. -/
def Settled (x : Exec α) : Prop := ∀ live live', (x live).1 = (x live').1

theorem settled_pure (a : α) : Settled (pure a : Exec α) := fun _ _ => rfl

theorem settled_restore (s : State) (f : Unit → Exec α) : Settled (restore s >>= f) :=
  fun _ _ => rfl

theorem Settled.bind {x : Exec α} {f : α → Exec β} (first : x.Settled)
    (rest : ∀ a, Settled (f a)) : Settled (x >>= f) := by
  intro live live'
  have same := first live live'
  match left : x live, right : x live' with
  | (.ok a, _), (.ok b, _) =>
    rw [left, right] at same
    cases same
    rw [bind_ok left, bind_ok right]
    exact rest a _ _
  | (.error e, _), (.error e', _) =>
    rw [left, right] at same
    cases same
    rw [bind_error left, bind_error right]
  | (.ok a, _), (.error e, _) | (.error e, _), (.ok a, _) =>
    rw [left, right] at same
    cases same

end Exec

open Exec in
/-- Every alternative starts from the state that is expanded. -/
theorem Code.outlinks_settled (code : Code) (s : State) : Settled (code.outlinks s) := by
  have byClauses : ∀ addresses, Settled (code.expandClauses code.search? s addresses) := by
    intro addresses
    cases addresses with
    | nil => exact settled_pure _
    | cons address rest => exact settled_restore s _
  have byRelations : ∀ label relations,
      Settled (code.expandRelations code.search? s label relations) := by
    intro label relations
    induction relations with
    | nil => exact settled_pure _
    | cons relation rest ih =>
      rw [Code.expandRelations]
      split
      · exact settled_restore s _
      · exact ih
  have expanded : Settled (code.expand s) := by
    unfold Code.expand Code.expandWith
    split
    · exact settled_pure _
    · split
      · exact settled_pure _
      · exact (byClauses _).bind fun _ => (byRelations _ _).bind fun _ => settled_pure _
  exact expanded.bind fun _ => settled_pure _

namespace Machine

/-- The steps from a state depend on the code only, not on what the machine has done before. -/
theorem outlinks_live {m m' : Machine} (same : m.code = m'.code) (s : State) :
    (m.outlinks s).1 = (m'.outlinks s).1 := by
  change (m.code.outlinks s m.live).1 = (m'.code.outlinks s m'.live).1
  rw [same]
  exact m'.code.outlinks_settled s m.live m'.live

/-- The states at the end of all runs with exactly the given number of steps. -/
def ends (m : Machine) : Nat → State → Except Error (List State)
  | 0, s => .ok [s]
  | n + 1, s => do
    let links ← (m.outlinks s).1
    let ends ← links.mapM fun link => ends m n link.child
    return ends.flatten

end Machine

/-! ### Runs as derivations -/

/-- A state that stands for a resolvent of the query. -/
structure Stands (code : Code) (q : Query) (s : State) (r : Resolvent) : Prop where
  represents : ∃ silent, Represents code (.ofQuery q) s r silent
  floor : s.floor = q.vars.length

/-- The ends of runs from a state stand for the ends of the derivations from its resolvent. -/
theorem Stands.ends {m : Machine} {t : Theory} {q : Query} {rules : List Rule}
    {tables : List (List Fact)} (obeys : m.code.Obeys t) (rulesOf : t.clauses.map (·.1) = rules)
    (plain : ∀ rule ∈ rules, rule.isPlain)
    (stores : List.Forall₂ Relation.Stores t.relations tables)
    (fits : ∀ f ∈ tables.flatten, f.args.length < Text.wordLimit) {n : Nat} {s : State}
    {r : Resolvent} {ends : List State} (stands : Stands m.code q s r)
    (found : m.ends n s = .ok ends) :
    ∃ rs, rs.Perm (r.derived rules tables.flatten n) ∧
      List.Forall₂ (Stands m.code q) ends rs := by
  induction n generalizing s r ends with
  | zero =>
    cases found
    exact ⟨[r], .refl _, .cons stands .nil⟩
  | succ n ih =>
    obtain ⟨links, linked, others⟩ := Except.bind_eq_ok.1 found
    obtain ⟨later, foundLater, equal⟩ := Except.bind_eq_ok.1 others
    cases equal
    obtain ⟨⟨silent, represents⟩, floor⟩ := stands
    obtain ⟨moves, foretold, follow⟩ := represents.links_follow obeys linked
    have children := Theory.children_perm rulesOf
      (fun _ _ _ rule member _ => plain rule member) stores fits foretold
    -- the ends behind every link in turn
    have collected : ∃ rs, rs.Perm (moves.flatMap fun move =>
          move.child.derived rules tables.flatten n) ∧
        List.Forall₂ (Stands m.code q) later.flatten rs := by
      clear found others linked foretold children
      induction follow generalizing later with
      | nil =>
        cases foundLater
        exact ⟨[], .refl _, .nil⟩
      | @cons link move links moves first others ihLinks =>
        rw [List.mapM_cons] at foundLater
        obtain ⟨here, foundHere, found⟩ := Except.bind_eq_ok.1 foundLater
        obtain ⟨behind, foundBehind, equal⟩ := Except.bind_eq_ok.1 found
        cases equal
        obtain ⟨rs, derived, stand⟩ := ih ⟨⟨_, first.represents⟩, first.floor.trans floor⟩ foundHere
        obtain ⟨rs', derived', stand'⟩ := ihLinks behind foundBehind
        refine ⟨rs ++ rs', ?_, ?_⟩
        · rw [List.flatMap_cons]
          exact derived.append derived'
        · rw [List.flatten_cons]
          exact List.rel_append stand stand'
    obtain ⟨rs, derived, stand⟩ := collected
    refine ⟨rs, derived.trans ?_, stand⟩
    rw [Resolvent.derived, ← List.flatMap_map]
    exact children.flatMap_right _

/-- The answers of completed states are those of the resolvents without goals. -/
theorem Stands.answers {code : Code} {q : Query} {ends : List State} {rs : List Resolvent}
    (count : code.queryRegisters = q.vars.length) (stand : List.Forall₂ (Stands code q) ends rs) :
    (ends.filter (·.completed)).map (code.fill q) =
      (rs.filter (·.goals.isEmpty)).map fun r => q.answered r.answer := by
  induction stand with
  | nil => rfl
  | @cons s r ends rs first others ih =>
    obtain ⟨⟨silent, represents⟩, floor⟩ := first
    rw [List.filter_cons, List.filter_cons, represents.completed]
    split
    · rw [List.map_cons, List.map_cons, ih, represents.fill_eq floor count]
    · exact ih

/-- A machine with compiled plain rules and tables of facts answers a query: the completed states
after a number of steps hold the computed answers of all derivations with this number of steps. -/
theorem Machine.ends_perm_computedAnswers {m : Machine} {rules : List Rule}
    {tables : List (List Fact)} (compiled : compileRules rules = .ok m.code.program)
    (plain : ∀ rule ∈ rules, rule.isPlain)
    (stores : List.Forall₂ Relation.Stores m.code.relations tables)
    (fits : ∀ f ∈ tables.flatten, f.args.length < Text.wordLimit) (q : Query) :
    ∃ s m', m.startQuery q = (.ok s, m') ∧ ∀ n ends, m'.ends n s = .ok ends →
      ((ends.filter (·.completed)).map (m'.code.fill q)).Perm
        (q.computedAnswers rules tables.flatten n) := by
  obtain ⟨s, m', started, code, floor, represents⟩ := m.startQuery_represents q
  refine ⟨s, m', started, fun n ends found => ?_⟩
  have builtIn : ∀ relation ∈ m.code.relations, relation.Fits := fun relation member =>
    Relation.fits (Relation.isBuiltIn_of_stores stores relation member)
  have obeys := m.obeys_ofRules compiled builtIn q
  rw [← code] at obeys represents
  obtain ⟨rs, derived, stand⟩ := Stands.ends obeys (map_fst_numbered rules) plain stores fits
    ⟨⟨_, represents⟩, floor⟩ found
  rw [Stands.answers (by rw [code]; rfl) stand]
  exact (derived.filter _).map _

/-- One meets whom an acquaintance knows. -/
def acquaintance : Rule where
  lhs := ⟨"meets", [.var ⟨"X", 0⟩, .var ⟨"Z", 1⟩]⟩
  rhs := [⟨"knows", [.var ⟨"X", 0⟩, .var ⟨"Y", 2⟩]⟩, ⟨"knows", [.var ⟨"Y", 2⟩, .var ⟨"Z", 1⟩]⟩]
  features := []

/-- Who knows whom. -/
def acquaintances : List Fact := [⟨"knows", ["ann", "bob"], 1⟩, ⟨"knows", ["bob", "cid"], 1⟩]

/-- The table of who knows whom. -/
def acquaintanceTable : FactTable :=
  ((FactTable.empty "people").add "knows" ["ann", "bob"] 1).add "knows" ["bob", "cid"] 1

/-- Whom Ann meets. -/
def metByAnn : Query := ⟨⟨"meets", [.constant "ann", .var ⟨"Who", 0⟩]⟩, []⟩

/-- The program answers that Ann meets Cid, after three steps. -/
theorem ends_perm_computedAnswers_acquaintance :
    ∃ program, compileRules [acquaintance] = .ok program ∧ ∃ s m',
      (Machine.new program [.facts acquaintanceTable]).startQuery metByAnn = (.ok s, m') ∧
      (∀ n ends, m'.ends n s = .ok ends →
        ((ends.filter (·.completed)).map (m'.code.fill metByAnn)).Perm
          (metByAnn.computedAnswers [acquaintance] acquaintances n)) ∧
      metByAnn.computedAnswers [acquaintance] acquaintances 3 =
        [⟨⟨"meets", [.constant "ann", .constant "cid"]⟩, []⟩] := by
  refine ⟨_, rfl, ?_⟩
  obtain ⟨s, m', started, answers⟩ := @Machine.ends_perm_computedAnswers
    (Machine.new _ [.facts acquaintanceTable]) [acquaintance] [acquaintances] rfl (by decide)
    (.cons (.facts (((FactTable.stores_empty "people").add _ _ _).add _ _ _)) .nil) (by decide)
    metByAnn
  exact ⟨s, m', started, answers, by decide⟩
end ProofWalk
