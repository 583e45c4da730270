import ProofWalk.Proofs.Machine.Safety

/-!
# Searches within searches

A feature that ranges over goals is searched for, and on the way the rules that the search comes to use may
search for features of their own. The depth of a search bounds how far it goes, but each search counts from
the beginning, so that the depth bounds nothing about how deep searches lie in each other. Whether expanding a
state comes to an end is decided by which predicates the rules search for: it does where the predicates have
ranks that fall with every search, and it does not where predicates search for each other in a circle.

## Main definitions

* `Ranks` — ranks of predicates that fall with every search
* `Circular` — predicates that begin by searching for each other

## Main results

* `Ranks.nested_fails` — searches lie no deeper in each other than the ranks of their goals
* `Machine.outlinks_ranked` — where ranks fall with every search, expanding a state fails at features only
* `Circular.nested_eq_error` — no bound on how deep searches lie in each other is enough for a circle
* `Machine.outlinks_circular` — expanding a state that calls into a circle runs into every such bound
-/

namespace ProofWalk

/-! ### Ranks -/

/-- Ranks of predicates. The body of a rule calls no predicate of a higher rank, and the features of a rule
search for predicates of lower ranks only. -/
structure Ranks (rank : String → Nat) (rules : List Rule) : Prop where
  bodies : ∀ rule ∈ rules, ∀ g ∈ rule.rhs, rank g.label ≤ rank rule.lhs.label
  searches : ∀ rule ∈ rules, ∀ f ∈ rule.features, ∀ g ∈ f.findall, rank g.label < rank rule.lhs.label

namespace Ranks

variable {rank : String → Nat} {rules : List Rule} {t : Theory}

theorem selfContained (ranks : Ranks rank rules) (bound : Nat) :
    SelfContained rules fun label => rank label ≤ bound :=
  fun rule isRule called g member => (ranks.bodies rule isRule g member).trans called

/-- Searches that do not fail for goals of lower ranks leave moves from goals of a rank to fail at features
only. -/
theorem movesWith_fails (ranks : Ranks rank (t.clauses.map (·.1)))
    (builtIn : ∀ relation ∈ t.relations, relation.isBuiltIn)
    {nested : Root → Resolvent → Except Error FeatureMap} {bound : Nat}
    (below : ∀ root r, r.goals ≠ [] → (∀ g ∈ r.goals, rank g.label < bound) →
      FailsOnly Error.OfReport (nested root r))
    (root : Root) {r : Resolvent} (goals : ∀ g ∈ r.goals, rank g.label ≤ bound) :
    FailsOnly Error.OfReport (t.movesWith nested root r) := by
  apply Theory.movesWith_fails builtIn fun _ => id
  intro g member clause isClause same f isFeature ranges root' r' value isSearch
  apply below
  · rw [isSearch]
    exact fun none => ranges (List.map_eq_nil_iff.1 none)
  · rw [isSearch]
    intro h isGoal
    obtain ⟨h, sought, rfl⟩ := List.mem_map.1 isGoal
    rw [Goal.label_mapVariables]
    have lower := ranks.searches _ (List.mem_map_of_mem isClause) f isFeature h sought
    rw [same] at lower
    exact Nat.lt_of_lt_of_le lower (goals g member)

/-- Searches lie no deeper in each other than the ranks of their goals. -/
theorem nested_fails (ranks : Ranks rank (t.clauses.map (·.1)))
    (builtIn : ∀ relation ∈ t.relations, relation.isBuiltIn) (nesting : Nat) (root : Root) (r : Resolvent)
    (pending : r.goals ≠ []) (goals : ∀ g ∈ r.goals, rank g.label < nesting) :
    FailsOnly Error.OfReport (t.nested nesting root r) := by
  induction nesting generalizing root r with
  | zero =>
    obtain ⟨g, member⟩ := List.exists_mem_of_ne_nil _ pending
    exact absurd (goals g member) (Nat.not_lt_zero _)
  | succ nesting ih =>
    rw [Theory.nested]
    have moves (r : Resolvent) (visited : ∀ g ∈ r.goals, rank g.label ≤ nesting) :
        FailsOnly Error.OfReport (t.movesWith (t.nested nesting) root r) :=
      ranks.movesWith_fails builtIn ih root visited
    -- no goal on the way of a search has a higher rank than the first ones
    refine Theory.search_fails moves (fun r visited moves found m member => ?_) _ [] fun g member => ?_
    · exact Theory.within_of_movesWith (ranks.selfContained nesting) found member visited
    · exact Nat.le_of_lt_succ (goals g member)

end Ranks

/-- Expansion ends where predicates have ranks that fall with every search, no matter how far a search goes: a
query is always started, and wherever its runs arrive the steps fail at a feature only. -/
theorem Machine.outlinks_ranked {m : Machine} {rules : List Rule}
    (compiled : compileRules rules = .ok m.code.program)
    (builtIn : ∀ relation ∈ m.code.relations, relation.isBuiltIn) {rank : String → Nat}
    (ranks : Ranks rank rules) (q : Query) (goals : ∀ g ∈ q.goals, rank g.label ≤ m.code.nestingLimit) :
    ∃ start m', m.startQuery q = (.ok start, m') ∧
      ∀ s, m'.Reaches start s → FailsOnly Error.OfReport (m'.outlinks s).1 := by
  obtain ⟨start, m', started, isCode, -, represents⟩ := m.startQuery_represents q
  have obeys := m.obeys_ofRules compiled (fun relation member => Relation.fits (builtIn relation member)) q
  rw [← isCode] at obeys represents
  refine ⟨start, m', started, ?_⟩
  intro s reaches
  rw [← map_fst_numbered rules] at ranks
  obtain ⟨r, silent, represents, within⟩ :=
    reaches.represents_within obeys (ranks.selfContained m.code.nestingLimit) ⟨_, _, represents, goals⟩
  refine represents.outlinks_fail obeys ?_
  exact ranks.movesWith_fails builtIn (fun root r => ranks.nested_fails builtIn _ root r) _ within

/-- What a document is about is found by searching for what its words say, which takes no search. -/
example : Ranks (fun label => if label = "about/2" then 1 else 0) topicRules :=
  ⟨by decide +kernel, by decide +kernel⟩

/-! ### Circles -/

/-- Predicates without arguments that begin by searching for each other: the first feature of the first rule
for each of them ranges over goals that begin with a goal of one of them. -/
structure Circular (rules : List Rule) (among : Goal → Prop) : Prop where
  nullary : ∀ g, among g → g.args = []
  searches : ∀ g, among g → ∃ rule f onward, rules.find? (·.lhs.label = g.label) = some rule ∧
    rule.features.head? = some f ∧ f.findall.head? = some onward ∧ among onward

/-- The predicate that a state calls is that of the first goal. -/
theorem Represents.pending_eq {code : Code} {root : Root} {s : State} {r : Resolvent}
    {silent : List Variable} (represents : Represents code root s r silent) :
    s.pending = r.goals.head?.map Goal.label := by
  rcases represents with ⟨_, activations, waiting⟩ | ⟨_, _, solved⟩
  · obtain ⟨g, goals, pending, -⟩ := waiting.goal
    rw [goals, pending]
    rfl
  · rw [solved.goals, solved.pending]
    rfl

theorem Goal.mapVariables_of_nullary {g : Goal} (nullary : g.args = []) (θ : Substitution) :
    g.mapVariables θ = g := by
  rw [mapVariables, nullary]
  exact congrArg (mk g.functor) nullary.symm

/-- A rule for a predicate without arguments resolves every goal of it. -/
theorem Resolvent.isSome_byRule? {r : Resolvent} {rule : Rule} {g : Goal} {rest : List Goal}
    (goals : r.goals = g :: rest) (same : rule.lhs.label = g.label) (nullary : g.args = []) :
    (r.byRule? rule).isSome := by
  rw [byRule?, resolve?, goals, Goal.eq_of_label same nullary, Goal.mapVariables_of_nullary nullary]
  simp only [and_self, if_true, nullary]
  rfl

/-- What a rule reports fails as the search for its first feature does. -/
theorem Theory.label_eq_error {nested : Root → Resolvent → Except Error FeatureMap} {rule : Rule}
    {f : FeatureTemplate} (first : rule.features.head? = some f) (ranges : f.findall ≠ [])
    {value : Substitution} {e : Error}
    (fails : ∀ root r, r.goals = f.findall.map (·.mapVariables value) → nested root r = .error e)
    (number next : Nat) : label nested rule number value next = .error e := by
  obtain ⟨others, features⟩ := List.head?_eq_some_iff.1 first
  have asked : addReport nested (Registers.ofRule rule) value next [] f = .error e := by
    rw [addReport, if_neg (by simpa using ranges), fails _ _ rfl]
    rfl
  rw [label, features, if_neg (by simp), List.foldlM_cons, asked]
  rfl

namespace Circular

variable {t : Theory} {among : Goal → Prop} {nested : Root → Resolvent → Except Error FeatureMap}
  {r : Resolvent} {g : Goal} {rest : List Goal}

/-- Moves from a goal of the circle fail as the search for a goal of the circle does. -/
theorem movesWith_eq_error (circular : Circular (t.clauses.map (·.1)) among) {e : Error}
    (fails : ∀ root r g rest, among g → r.goals = g :: rest → nested root r = .error e) (root : Root)
    (member : among g) (goals : r.goals = g :: rest) : t.movesWith nested root r = .error e := by
  obtain ⟨rule, f, onward, found, first, sought, isAmong⟩ := circular.searches g member
  obtain ⟨behind, ranges⟩ := List.head?_eq_some_iff.1 sought
  have same : rule.lhs.label = g.label := by simpa using List.find?_some found
  -- the rule of the circle is the first one for its predicate
  obtain ⟨clause, firstClause, rfl⟩ : ∃ clause,
      t.clauses.find? (fun clause => clause.1.lhs.label = g.label) = some clause ∧ clause.1 = rule := by
    rw [List.find?_map] at found
    exact Option.map_eq_some_iff.1 found
  rw [← List.head?_filter] at firstClause
  obtain ⟨more, clauses⟩ := List.head?_eq_some_iff.1 firstClause
  -- its head is resolved, and its first feature asks for the next search
  have resolves := Resolvent.isSome_byRule? goals same (circular.nullary g member)
  obtain ⟨⟨θ, child⟩, resolved⟩ := Option.isSome_iff_exists.1 resolves
  have labels : Theory.label nested clause.1 clause.2 (θ.after (apart r.next)) child.next = .error e := by
    apply Theory.label_eq_error first (by simp [ranges])
    intro root r isSearch
    rw [ranges, List.map_cons, Goal.mapVariables_of_nullary (circular.nullary onward isAmong)] at isSearch
    exact fails root r onward _ isAmong isSearch
  have moves : Theory.byClause nested root r clause = .error e := by
    rw [Theory.byClause, resolved]
    simp only
    rw [labels]
    rfl
  rw [Theory.movesWith, goals]
  simp only
  rw [clauses, movesBy, moves]
  rfl

/-- However deep searches may lie in each other, a search for a goal of a circle goes deeper. -/
theorem nested_eq_error (circular : Circular (t.clauses.map (·.1)) among) (searches : 0 < t.findallDepth)
    (nesting : Nat) (root : Root) (r : Resolvent) (g : Goal) (rest : List Goal) (member : among g)
    (goals : r.goals = g :: rest) : t.nested nesting root r = .error (.nestingTooDeep t.nestingLimit) := by
  induction nesting generalizing root r g rest with
  | zero => rfl
  | succ nesting ih =>
    obtain ⟨depth, isDepth⟩ := Nat.exists_eq_succ_of_ne_zero (Nat.ne_of_gt searches)
    rw [Theory.nested, isDepth, Theory.search, circular.movesWith_eq_error ih root member goals]
    rfl

end Circular

/-- Expansion does not end where predicates search for each other in a circle: the steps from a state that
calls one of these predicates run into every bound on how deep searches lie in each other, however short a
search is. -/
theorem Machine.outlinks_circular {m : Machine} {rules : List Rule}
    (compiled : compileRules rules = .ok m.code.program)
    (fits : ∀ relation ∈ m.code.relations, relation.Fits) {among : Goal → Prop}
    (circular : Circular rules among) (searches : 0 < m.code.findallDepth) (q : Query) :
    ∃ start m', m.startQuery q = (.ok start, m') ∧ ∀ s, m'.Reaches start s → ∀ g, among g →
      s.pending = some g.label → (m'.outlinks s).1 = .error (.nestingTooDeep m.code.nestingLimit) := by
  obtain ⟨start, m', started, isCode, -, represents⟩ := m.startQuery_represents q
  have obeys := m.obeys_ofRules compiled fits q
  rw [← isCode] at obeys represents
  refine ⟨start, m', started, ?_⟩
  intro s reaches g member calls
  rw [← map_fst_numbered rules] at circular
  obtain ⟨r, silent, represents⟩ := reaches.represents obeys ⟨_, _, represents⟩
  -- the first goal has the label of a goal without arguments, and so it is that goal
  rw [represents.pending_eq] at calls
  obtain ⟨h, isFirst, same⟩ := Option.map_eq_some_iff.1 calls
  obtain ⟨rest, goals⟩ := List.head?_eq_some_iff.1 isFirst
  rw [Goal.eq_of_label same (circular.nullary g member)] at goals
  have yields := represents.outlinks obeys m'.live
  rw [Theory.moves] at yields
  rw [circular.movesWith_eq_error (circular.nested_eq_error searches _) _ member goals] at yields
  exact yields

/-- A goal with a feature for every proof of the goal itself. -/
def selfSearch : List Rule := [⟨⟨"p", []⟩, [⟨"q", []⟩], [⟨⟨"f", []⟩, .unit, [⟨"p", []⟩]⟩]⟩]

theorem circular_selfSearch : Circular selfSearch fun g => g = ⟨"p", []⟩ where
  nullary := by
    rintro g rfl
    rfl
  searches := by
    rintro g rfl
    exact ⟨_, _, _, List.find?_cons_of_pos (decide_eq_true rfl), rfl, rfl, rfl⟩

/-- The question for a goal whose feature searches for the goal itself runs into every bound on how deep
searches lie in each other, and the depth of a search is no such bound. -/
theorem outlinks_selfSearch (depth limit : Nat) (searches : 0 < depth) :
    ∃ program : Program, compileRules selfSearch = .ok program ∧ ∃ start m',
      Machine.startQuery
        { code :=
            { program, relations := [], query := #[], queryRegisters := 0
              findallDepth := depth, nestingLimit := limit }
          live := .initial } ⟨⟨"p", []⟩, []⟩ = (.ok start, m') ∧
      (m'.outlinks start).1 = .error (.nestingTooDeep limit) := by
  have compiles : (compileRules selfSearch).toOption.isSome = true := by decide +kernel
  rcases compiled : compileRules selfSearch with e | program
  · rw [compiled] at compiles
    cases compiles
  · set m : Machine :=
      { code :=
          { program, relations := [], query := #[], queryRegisters := 0
            findallDepth := depth, nestingLimit := limit }
        live := .initial }
    obtain ⟨start, m', started, fails⟩ :=
      m.outlinks_circular compiled (by simp [m]) circular_selfSearch searches ⟨⟨"p", []⟩, []⟩
    refine ⟨program, rfl, start, m', started, fails start .start _ rfl ?_⟩
    obtain ⟨start', m'', started', -, -, represents⟩ := m.startQuery_represents ⟨⟨"p", []⟩, []⟩
    rw [started] at started'
    cases started'
    exact represents.pending_eq

end ProofWalk
