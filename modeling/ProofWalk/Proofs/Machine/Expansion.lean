import ProofWalk.Machine.Interpreter
import ProofWalk.Proofs.Machine.Resolving
import ProofWalk.Proofs.Relation.Answers
import ProofWalk.Proofs.Results

/-!
# Expanding a state

The successors of a waiting state are the moves of the resolvent that it stands for: the same number
in the same order, with the same features, and where one side fails the other fails alike. This goes
through nested searches, which expand states in turn, one level of nesting after the other. A step of
the machine that fails leads nowhere, so that no successor of a state has failed.

## Main definitions

* `Arrives` — a successor is where a move leads
* `Code.Obeys` — the code and the relations of a theory

## Main results

* `Represents.outlinks` — the steps of the machine are the moves of the theory
* `startQuery_represents` — the start state stands for the query
* `Code.alive_of_outlinks` — the successors of a state have not failed
* `Machine.alive_of_startQuery` — nor has the start state of a query
-/

namespace ProofWalk

open Exec

/-- The code of a theory: its clauses lie where the program says, and its relations answer. -/
structure Code.Obeys (code : Code) (t : Theory) : Prop where
  clauses : ∀ label, List.Forall₂ (fun clause address => ClauseAt code address clause.1 clause.2)
    (t.clauses.filter fun clause => clause.1.lhs.label = label) (code.program.addresses label)
  relations : code.relations = t.relations
  fits : ∀ relation ∈ t.relations, relation.Fits
  findallDepth : code.findallDepth = t.findallDepth
  nestingLimit : code.nestingLimit = t.nestingLimit

/-- A successor is where a move leads, and carries its features. -/
structure Arrives (code : Code) (root : Root) (silent : List Variable) (floor : Nat) (b : Branch)
    (m : ProofMove) : Prop where
  edge : b.edge = m.edge
  reported : b.reported = m.reported
  floor : b.child.floor = floor
  represents : Represents code root b.child m.child (m.child.stillSilent root silent)

section Expanding

variable {code : Code} {findall : Nat → Exec Unit} {root : Root} {read : Nat → Term}
  {activations : List Activation} {s : State} {r : Resolvent} {silent : List Variable} {live : Live}
  {nested : Root → Resolvent → Except Error FeatureMap} {g : Goal} {rest : List Goal}

/-- The successors by clauses are the moves by their rules. -/
theorem Waiting.expandClauses (waiting : Waiting code root read activations s r silent)
    (nests : Nests code findall nested) (goals : r.goals = g :: rest)
    {clauses : List (Rule × Nat)} {addresses : List Nat}
    (placed : List.Forall₂ (fun clause address => ClauseAt code address clause.1 clause.2) clauses
      addresses)
    (same : ∀ clause ∈ clauses, clause.1.lhs.label = g.label) :
    Yields (code.expandClauses findall s addresses) live
      (movesBy (Theory.byClause nested root r) clauses)
      fun branches _ moves => List.Forall₂ (Arrives code root silent s.floor) branches moves := by
  induction placed generalizing live with
  | nil => exact ⟨[], live, rfl, .nil⟩
  | @cons clause address clauses addresses here others ih =>
    have restored : ({ state := s, features := [], drafts := [] } : Live).state = s := rfl
    have resolved := waiting.byClause nests here goals (same clause (by simp)) restored
    have go := fun live' =>
      @ih live' fun c member => same c (List.mem_cons_of_mem clause member)
    have start : code.expandClauses findall s (address :: addresses) live =
        (code.runFrom findall address >>= fun features => state >>= fun child =>
          code.expandClauses findall s addresses >>= fun others =>
            if child.failed || features.isEmpty then pure others
            else pure ({ child, edge := features, reported := features } :: others))
          { state := s, features := [], drafts := [] } := rfl
    refine Yields.of_eq start ?_
    rw [movesBy, Theory.byClause]
    -- a clause that clashes or reports nothing gives no successor
    cases byRule : r.byRule? clause.1 with
    | none =>
      rw [byRule] at resolved
      obtain ⟨features, live', ran, failed⟩ := resolved
      refine Yields.after ran (Yields.look ?_)
      change Yields _ _ (_ >>= fun others => pure ([] ++ others)) _
      refine Yields.bind (go live') fun branches live'' moves related => ?_
      rw [failed]
      exact ⟨branches, live'', rfl, related⟩
    | some result =>
      obtain ⟨θ, child⟩ := result
      rw [byRule] at resolved
      simp only
      rw [bind_assoc]
      refine Yields.bind resolved fun features live' reported ⟨equal, floor, represents⟩ => ?_
      subst equal
      rw [pure_bind]
      refine Yields.look (Yields.bind (go live') fun branches live'' moves related => ?_)
      rw [represents.failed, Bool.false_or]
      by_cases empty : features.isEmpty
      · rw [if_pos empty, if_pos empty]
        exact ⟨branches, live'', rfl, related⟩
      · rw [if_neg empty, if_neg empty]
        exact ⟨_, live'', rfl, .cons ⟨rfl, rfl, floor, represents⟩ related⟩

/-- The successors by rows are the moves by them. -/
theorem Waiting.expandRows (waiting : Waiting code root read activations s r silent)
    (goals : r.goals = g :: rest) {rows : List Row}
    (fewer : ∀ row ∈ rows, row.values.length ≤ g.arity) :
    Yields (code.expandRows findall s rows) live (movesBy (Theory.byRow root r) rows)
      fun branches _ moves => List.Forall₂ (Arrives code root silent s.floor) branches moves := by
  induction rows generalizing live with
  | nil => exact ⟨[], live, rfl, .nil⟩
  | cons row rows ih =>
    have restored : ({ state := s, features := [], drafts := [] } : Live).state = s := rfl
    have resolved := waiting.byValues findall goals (fewer row (by simp)) restored
    have go := fun live' =>
      @ih live' fun other member => fewer other (List.mem_cons_of_mem row member)
    have start : code.expandRows findall s (row :: rows) live =
        (code.resolveWith findall row.values >>= fun alive => state >>= fun child =>
          reported >>= fun reported => code.expandRows findall s rows >>= fun others =>
            pure (if alive then { child, edge := row.features, reported } :: others else others))
          { state := s, features := [], drafts := [] } := rfl
    refine Yields.of_eq start ?_
    rw [movesBy, Theory.byRow]
    cases byValues : r.byValues? row.values with
    | none =>
      rw [byValues] at resolved
      obtain ⟨live', ran⟩ := resolved
      refine Yields.after ran (Yields.look ?_)
      change Yields (code.expandRows findall s rows >>= fun others => pure others) live'
        (_ >>= fun others => pure ([] ++ others)) _
      exact Yields.bind (go live') fun branches live'' moves related =>
        ⟨branches, live'', rfl, related⟩
    | some child =>
      rw [byValues] at resolved
      simp only
      rw [bind_assoc]
      refine Yields.bind resolved fun alive live' found ⟨isAlive, isFound, floor, represents⟩ => ?_
      subst isAlive isFound
      rw [pure_bind]
      refine Yields.look (Yields.of_eq (y := code.expandRows findall s rows >>= fun others =>
        pure ({ child := live'.state, edge := row.features, reported := live'.features } :: others))
        rfl ?_)
      exact Yields.bind (go live') fun branches live'' moves related =>
        ⟨_, live'', rfl, .cons ⟨rfl, rfl, floor, represents⟩ related⟩

/-- The arguments that a relation is asked about are those of the goal. -/
theorem Waiting.callArgs (waiting : Waiting code root read activations s r silent)
    (goals : r.goals = g :: rest) : s.callArgs = g.callArgs := by
  obtain ⟨g', isGoals, pending, inside, cells⟩ := waiting.goal
  obtain ⟨rfl, rfl⟩ : g = g' ∧ rest = _ := List.cons.inj (goals.symm.trans isGoals)
  unfold State.callArgs Goal.callArgs
  rw [pending, Option.map_some, Option.getD_some]
  simp only
  obtain arity | arity := g.labelArity_label_or
  · rw [arity, if_neg (by omega), List.take_of_length_le (by simp [Goal.arity])]
    refine List.ext_getElem? fun k => ?_
    rw [List.getElem?_map, List.getElem?_map]
    by_cases argument : k < g.arity
    · have found : g.args[k]? = some g.args[k] := List.getElem?_eq_getElem argument
      rw [List.getElem?_range argument, found, Option.map_some, Option.map_some,
        waiting.reads.constantAt_eq (by omega), cells k _ found]
    · rw [List.getElem?_eq_none_iff.2 (by simpa using argument),
        List.getElem?_eq_none_iff.2 (Nat.le_of_not_lt argument)]
      rfl
  · simp [arity]

/-- The successors by relations are the moves by them. -/
theorem Waiting.expandRelations (waiting : Waiting code root read activations s r silent)
    (goals : r.goals = g :: rest) {relations : List Relation}
    (fits : ∀ relation ∈ relations, relation.Fits) :
    Yields (code.expandRelations findall s g.label relations) live
      (Theory.byRelations root r g relations)
      fun branches _ moves => List.Forall₂ (Arrives code root silent s.floor) branches moves := by
  induction relations generalizing live with
  | nil => exact ⟨[], live, rfl, .nil⟩
  | cons relation relations ih =>
    have go := fun live' => @ih live' fun other member =>
      fits other (List.mem_cons_of_mem relation member)
    rw [Code.expandRelations, Theory.byRelations]
    -- a relation that does not know the predicate is passed over
    by_cases claimed : relation.claims g.label
    · rw [if_pos claimed, if_pos claimed, waiting.callArgs goals]
      have start : (do
          restore s
          let rows ← lift fun _ => relation.lookup g.label g.callArgs
          let branches ← code.expandRows findall s rows
          let others ← code.expandRelations findall s g.label relations
          pure (branches ++ others) : Exec (List Branch)) live =
          ((lift fun _ => relation.lookup g.label g.callArgs) >>= fun rows =>
            code.expandRows findall s rows >>= fun branches =>
              code.expandRelations findall s g.label relations >>= fun others =>
                pure (branches ++ others)) { state := s, features := [], drafts := [] } := rfl
      refine Yields.of_eq start ?_
      cases found : relation.lookup g.label g.callArgs with
      | error e => exact bind_error_fst rfl
      | ok rows =>
        have looked : (lift fun _ => .ok rows : Exec (List Row))
            { state := s, features := [], drafts := [] } =
            (.ok rows, { state := s, features := [], drafts := [] }) := rfl
        refine Yields.after looked ?_
        change Yields _ _ (movesBy (Theory.byRow root r) rows >>= _) _
        refine Yields.bind (waiting.expandRows goals (fits relation (by simp) g rows found))
          fun branches live' moves related => ?_
        exact Yields.bind (go live') fun others live'' moves' relatedRest =>
          ⟨_, live'', rfl, List.rel_append related relatedRest⟩
    · rw [if_neg claimed, if_neg claimed]
      exact go live

theorem Represents.completed (represents : Represents code root s r silent) :
    s.completed = r.goals.isEmpty := by
  obtain ⟨_, _, waiting⟩ | ⟨_, _, solved⟩ := represents
  · obtain ⟨g, goals, -⟩ := waiting.goal
    rw [waiting.completed, goals]
    rfl
  · rw [solved.completed, solved.goals]
    rfl

/-- The successors of a state are the moves of its resolvent. -/
theorem Represents.expandWith (represents : Represents code root s r silent) {t : Theory}
    (obeys : code.Obeys t) (nests : Nests code findall nested) (live : Live) :
    Yields (code.expandWith findall s) live (t.movesWith nested root r)
      fun branches _ moves => List.Forall₂ (Arrives code root silent s.floor) branches moves := by
  obtain ⟨_, _, waiting⟩ | ⟨_, _, solved⟩ := represents
  · obtain ⟨g, goals, pending, -⟩ := waiting.goal
    rw [Code.expandWith, waiting.completed, waiting.failed, pending, Theory.movesWith, goals]
    refine Yields.bind (waiting.expandClauses nests goals (obeys.clauses g.label)
      fun clause member => of_decide_eq_true (List.mem_filter.1 member).2)
      fun branches live' moves related => ?_
    rw [obeys.relations]
    exact Yields.bind (waiting.expandRelations goals obeys.fits)
      fun others live'' moves' relatedRest => ⟨_, live'', rfl, List.rel_append related relatedRest⟩
  · rw [Code.expandWith, solved.completed, Theory.movesWith, solved.goals]
    exact ⟨[], live, rfl, .nil⟩

/-! ### Nested searches -/

/-- A search from a state is the search from its resolvent. -/
theorem Represents.search {t : Theory} (obeys : code.Obeys t) (nests : Nests code findall nested)
    (represents : Represents code root s r silent) (live : Live) (depth : Nat)
    (found : FeatureMap) :
    Yields (code.search findall depth found s) live (t.search nested root depth found r)
      fun found _ foretold => found = foretold := by
  induction depth generalizing s r silent live found with
  | zero => exact ⟨found, live, rfl, rfl⟩
  | succ depth ih =>
    rw [Code.search, Theory.search]
    refine Yields.bind (represents.expandWith obeys nests live) fun branches live' moves related => ?_
    induction related generalizing live' found with
    | nil => exact ⟨found, live', rfl, rfl⟩
    | @cons b m branches moves arrives others ihRest =>
      rw [List.foldlM_cons, List.foldlM_cons, arrives.represents.completed]
      by_cases ended : m.child.goals.isEmpty
      · rw [if_pos ended, if_pos ended, arrives.reported, pure_bind]
        exact ihRest _ live'
      · rw [if_neg ended, if_neg ended]
        refine Yields.bind (ih arrives.represents _ found) fun found' live'' foretold same => ?_
        rw [← same]
        exact ihRest found' live''

end Expanding

/-- The code of a feature that ranges over goals, run alone, stops at the first of these goals. -/
theorem Running.startSearch {code : Code} {read : Nat → Term} {next : Nat} {live : Live} {a : Activation}
    {callers : List Activation} {f : FeatureTemplate} {address : Nat} {instructions : List Instruction}
    (findall : Nat → Exec Unit) (running : Running code read next live.state a callers)
    (nonempty : f.findall ≠ []) (known : ∀ g ∈ f.findall, ∀ v ∈ g.vars, v ∈ a.vars)
    (compiled : compileFindall ⟨a.vars⟩ a.seen f = .ok instructions)
    (placed : code.HasAt address instructions) :
    ∃ stopped, code.runFrom findall address
        { state := { live.state with calls := [] }, features := [], drafts := [] } =
        (.ok stopped.features, stopped) ∧
      ∃ silent, Represents code { vars := a.vars, closing := some f } stopped.state
        { answer := a.vars.map a.value, goals := f.findall.map (·.mapVariables a.value), next } silent := by
  obtain ⟨feature, compiledFeature, equal⟩ := Except.bind_eq_ok.1 compiled
  cases equal
  set root : Root := { vars := a.vars, closing := some f }
  -- the code that is searched runs alone, in the window of the clause that it belongs to
  let alone : Activation := { a with goals := f.findall, closing := some f }
  let started : Live :=
    { state := { live.state with calls := [], pc := address, pending := none }
      features := []
      drafts := [] }
  have running' : Running code read next started.state alone [] := by
    have renewed := running.withGoals f.findall (some f)
    exact ⟨renewed.reads, renewed.fresh.head, renewed.window, .nil, renewed.completed, renewed.failed, rfl⟩
  have continues : Continues code started.state.pc alone := by
    refine ⟨known, .clearFeatures :: feature, ?_, placed⟩
    exact Except.map_eq_ok.2 ⟨feature, compiledFeature, rfl⟩
  have goals : (Running.goal (a.vars.map a.value) next [alone]) =
      { answer := a.vars.map a.value
        goals := f.findall.map (·.mapVariables a.value)
        next } := by
    simp [Running.goal, Activation.resolved, alone]
  have resumed := running'.resume findall continues
    (show Rooted root (a.vars.map a.value) a.unset [alone] from ⟨rfl, rfl, rfl, rfl⟩)
    (show 0 = started.state.calls.length from rfl)
  have waits : (Running.goal (a.vars.map a.value) next [alone]).finish root started.features = .ok [] := by
    rw [goals]
    cases h : f.findall with
    | nil => exact absurd h nonempty
    | cons g rest => rfl
  rw [waits, goals] at resumed
  obtain ⟨_, stopped, ran, -, -, represents⟩ := resumed
  have wholeRun : code.run findall started = (.ok _, stopped) := ran
  exact ⟨stopped, (bind_ok wholeRun).trans rfl, _, represents⟩

/-- Nested searches of the machine are those of the theory, at every depth of nesting. -/
theorem Code.Obeys.nests {code : Code} {t : Theory} (obeys : code.Obeys t) (nesting : Nat) :
    Nests code (code.findall nesting) (t.nested nesting) := by
  induction nesting with
  | zero =>
    intro read next live a callers f address instructions running _ _ _ _
    rw [Theory.nested, ← obeys.nestingLimit]
    rfl
  | succ nesting ih =>
    intro read next live a callers f address instructions running nonempty known compiled placed
    obtain ⟨stopped, runs, silent, represents⟩ :=
      running.startSearch (code.findall nesting) nonempty known compiled placed
    have searched := represents.search obeys ih stopped t.findallDepth []
    rw [obeys.findallDepth.symm] at searched
    have collected : code.collect (code.findall nesting) address
        { live with features := [], drafts := [] } =
        code.search (code.findall nesting) code.findallDepth [] stopped.state stopped := by
      rw [Code.collect, update_bind, bind_ok runs, state_bind, represents.completed,
        represents.failed, if_neg (by simpa using nonempty), if_neg (by simp)]
    rw [Theory.nested, ← obeys.findallDepth]
    set root : Root := { vars := a.vars, closing := some f }
    cases foretold : t.search (t.nested nesting) root code.findallDepth [] _ with
    | error e =>
      rw [foretold] at searched
      have failed : code.search (code.findall nesting) code.findallDepth [] stopped.state stopped =
        (.error e, _) := Prod.ext searched rfl
      change (code.findall (nesting + 1) address live).1 = _
      rw [Code.findall, collected, failed]
    | ok found =>
      rw [foretold] at searched
      obtain ⟨_, last, done, rfl⟩ := searched
      refine ⟨(), { live with features := FeatureMap.merge live.features _ }, ?_, rfl⟩
      rw [Code.findall, collected, done]

/-! ### Steps -/

/-- A step of the machine is where a move leads, and carries its features. -/
structure Follows (code : Code) (root : Root) (silent : List Variable) (floor : Nat) (link : Outlink)
    (m : ProofMove) : Prop where
  features : link.features = m.edge
  floor : link.child.floor = floor
  represents : Represents code root link.child m.child (m.child.stillSilent root silent)

/-- The steps of the machine are the moves of the theory. -/
theorem Represents.outlinks {code : Code} {t : Theory} {root : Root} {s : State} {r : Resolvent}
    {silent : List Variable} (represents : Represents code root s r silent) (obeys : code.Obeys t)
    (live : Live) :
    Yields (code.outlinks s) live (t.moves root r) fun links _ moves =>
      List.Forall₂ (Follows code root silent s.floor) links moves := by
  have nests := obeys.nests t.nestingLimit
  rw [← obeys.nestingLimit] at nests
  have expanded := represents.expandWith obeys nests live
  rw [Theory.moves, ← obeys.nestingLimit]
  rw [← bind_pure (t.movesWith (t.nested code.nestingLimit) root r)]
  refine Yields.bind expanded fun branches live' moves related => ⟨_, live', rfl, ?_⟩
  refine List.forall₂_map_left_iff.2 ?_
  exact related.imp fun b m arrives => ⟨arrives.edge, arrives.floor, arrives.represents⟩

/-- The steps that a machine takes from a state are the moves of its resolvent. -/
theorem Represents.links_follow {m : Machine} {t : Theory} {root : Root} {s : State} {r : Resolvent}
    {silent : List Variable} (represents : Represents m.code root s r silent) (obeys : m.code.Obeys t)
    {links : List Outlink} (linked : (m.outlinks s).1 = .ok links) :
    ∃ moves, t.moves root r = .ok moves ∧
      List.Forall₂ (Follows m.code root silent s.floor) links moves :=
  (represents.outlinks obeys m.live).of_ok (Prod.ext linked rfl)

/-- The theory of a rule file with relations. -/
def Theory.ofRules (rules : List Rule) (relations : List Relation) (findallDepth nestingLimit : Nat) :
    Theory :=
  { clauses := numbered rules, relations, findallDepth, nestingLimit }

/-- A machine that runs a compiled rule file obeys its theory, whatever query is installed. -/
theorem Machine.obeys_ofRules {m : Machine} {rules : List Rule}
    (compiled : compileRules rules = .ok m.code.program)
    (fits : ∀ relation ∈ m.code.relations, relation.Fits) (q : Query) :
    (m.installed q).Obeys
      (.ofRules rules m.code.relations m.code.findallDepth m.code.nestingLimit) where
  clauses := clausesAt_of_compileRules (m.installed q) compiled
  relations := rfl
  fits := fits
  findallDepth := rfl
  nestingLimit := rfl

/-- The code of a query lies behind the program. -/
private theorem installed_hasAt (m : Machine) (q : Query) :
    (m.installed q).HasAt m.code.program.size q.compile := by
  intro k inside
  have behind : ¬m.code.program.size + k < m.code.program.size := by omega
  simp [Code.fetch?, Machine.installed, behind]

/-- The start state stands for the query. -/
theorem Machine.startQuery_represents (m : Machine) (q : Query) :
    ∃ s m', m.startQuery q = (.ok s, m') ∧ m'.code = m.installed q ∧ s.floor = q.vars.length ∧
      Represents (m.installed q) (.ofQuery q) s (.ofQuery q)
        ((Resolvent.ofQuery q).stillSilent (.ofQuery q) q.vars) := by
  set code := m.installed q with isCode
  set a : Activation :=
    { vars := q.vars, seen := [], value := .var, goals := q.goals, closing := none }
  let started : Live :=
    { state := { State.initial with pc := m.code.program.size, pending := none }
      features := []
      drafts := [] }
  let opened : Live :=
    { started with state := { State.initial with
      pc := m.code.program.size + 1
      pending := none
      registers := #[] ++ Array.replicate q.vars.length none } }
  have values : a.unsetValues = q.vars.map .var := by
    simp [Activation.unsetValues, Activation.unset, a]
  -- behind the first instruction the variables of the query have registers, none of which is set
  have running : Running code (fun _ => .constant "") q.serialBound opened.state a [] := by
    constructor
    case reads => exact Reads.empty _
    case fresh =>
      refine ⟨fun i inside => absurd inside (Nat.not_lt_zero i), fun t member => ?_, ?_⟩
      · rw [List.flatMap_singleton, values] at member
        obtain ⟨v, known, rfl⟩ := List.mem_map.1 member
        exact ⟨v, rfl, serial_lt_serialBound (mem_firstOccurrences.1 known),
          fun i inside => absurd inside (Nat.not_lt_zero i)⟩
      · rw [List.flatMap_singleton, values]
        exact (nodup_firstOccurrences _).map fun v w equal => Term.var.inj equal
    case window =>
      have size : opened.state.registers.size = q.vars.length := by simp [opened]
      rw [size]
      refine ⟨nodup_firstOccurrences _, Nat.le_refl _, fun v seen => (by cases seen),
        fun v free => ?_⟩
      have index := List.idxOf_lt_length_of_mem (Activation.mem_unset.1 free).1
      change q.vars.idxOf v < q.vars.length at index
      change (#[] ++ Array.replicate q.vars.length none)[
        q.vars.length - q.vars.length + q.vars.idxOf v]? = some none
      simp [index]
    case callers => exact .nil
    case completed => rfl
    case failed => rfl
    case pending => rfl
  -- from there the machine runs on to the first call
  have placed : code.HasAt m.code.program.size
      (.allocate q.vars.length :: ((compileGoals ⟨q.vars⟩ [] q.goals).1 ++ [.ret])) :=
    installed_hasAt m q
  have continues : Continues code opened.state.pc a := by
    refine ⟨fun g member v occurs => ?_, [], rfl, placed.tail⟩
    exact mem_firstOccurrences.2 (List.mem_flatMap.2 ⟨g, member, occurs⟩)
  have opening : line code.search? started.state.pc [.allocate q.vars.length] started =
      (.ok true, opened) := rfl
  have resumed := running.resume code.search? continues
    (show Rooted (.ofQuery q) (q.vars.map .var) q.vars [a] from ⟨rfl, rfl, rfl, by
      simp [Activation.unset, a]⟩) (show 0 = opened.state.calls.length from rfl)
  have goal : Running.goal (q.vars.map .var) q.serialBound [a] = Resolvent.ofQuery q := by
    simp [Running.goal, Activation.resolved, Resolvent.ofQuery, a]
  have waits : (Resolvent.ofQuery q).finish (.ofQuery q) opened.features = .ok [] := rfl
  rw [goal, waits] at resumed
  obtain ⟨_, stopped, ran, -, floor, represents⟩ := resumed
  have run : code.runThrough code.search? 0 started = (.ok (), stopped) := by
    rw [runThrough_line rfl running.isStopped (Code.HasAt.left placed) ?_ opening]
    · exact ran
    · simp [Instruction.leaves]
  have wholeRun : code.run code.search? started = (.ok (), stopped) := run
  have runs : code.runFrom code.search? code.program.size { m.live with state := .initial } =
      (.ok stopped.features, stopped) :=
    (bind_ok wholeRun).trans rfl
  refine ⟨stopped.state, { code, live := stopped }, ?_, rfl, ?_, represents⟩
  · have start : (code.runFrom code.search? code.program.size >>= fun _ => Exec.state)
        { m.live with state := .initial } = (.ok stopped.state, stopped) := bind_ok runs
    have split : m.startQuery q = (((code.runFrom code.search? code.program.size >>= fun _ =>
        Exec.state) { m.live with state := .initial }).1, { code, live := ((code.runFrom code.search?
          code.program.size >>= fun _ => Exec.state) { m.live with state := .initial }).2 }) := rfl
    rw [split, start]
  · rw [floor]
    simp [State.floor, opened, State.initial]

/-! ### Successors that have not failed -/

section

variable {code : Code} {findall : Nat → Exec Unit} {s : State} {live live' : Live}

/-- Where a row goes through, the state has not failed. -/
theorem Code.alive_of_resolveWith {values : List String}
    (done : code.resolveWith findall values live = (.ok true, live')) : live'.state.failed = false := by
  unfold Code.resolveWith at done
  obtain ⟨s, live₁, -, done⟩ := bind_eq_ok done
  split at done
  · cases done
  obtain ⟨unifies, live₂, -, done⟩ := bind_eq_ok done
  cases unifies with
  | false =>
    obtain ⟨_, live₃, -, done⟩ := bind_eq_ok done
    cases done
  | true =>
    obtain ⟨_, live₃, -, done⟩ := bind_eq_ok done
    obtain ⟨_, live₄, -, done⟩ := bind_eq_ok done
    obtain ⟨_, live₅, -, done⟩ := bind_eq_ok done
    obtain ⟨last, live₆, isLast, done⟩ := bind_eq_ok done
    cases isLast
    obtain ⟨alive, same⟩ := Prod.mk.inj done
    rw [← same]
    simpa using Except.ok.inj alive

theorem Code.alive_of_expandClauses {addresses : List Nat} {branches : List Branch}
    (done : code.expandClauses findall s addresses live = (.ok branches, live')) :
    ∀ b ∈ branches, b.child.failed = false := by
  induction addresses generalizing live branches with
  | nil =>
    cases done
    intro b member
    cases member
  | cons address rest ih =>
    unfold Code.expandClauses at done
    obtain ⟨_, live₁, -, done⟩ := bind_eq_ok done
    obtain ⟨features, live₂, -, done⟩ := bind_eq_ok done
    obtain ⟨child, live₃, -, done⟩ := bind_eq_ok done
    obtain ⟨others, live₄, behind, done⟩ := bind_eq_ok done
    split at done
    · cases done
      exact ih behind
    · rename_i kept
      cases done
      intro b member
      rcases List.mem_cons.1 member with rfl | member
      · simp only [Bool.or_eq_true, not_or, Bool.not_eq_true] at kept
        exact kept.1
      · exact ih behind b member

theorem Code.alive_of_expandRows {rows : List Row} {branches : List Branch}
    (done : code.expandRows findall s rows live = (.ok branches, live')) :
    ∀ b ∈ branches, b.child.failed = false := by
  induction rows generalizing live branches with
  | nil =>
    cases done
    intro b member
    cases member
  | cons row rest ih =>
    unfold Code.expandRows at done
    obtain ⟨_, live₁, -, done⟩ := bind_eq_ok done
    obtain ⟨alive, live₂, resolved, done⟩ := bind_eq_ok done
    obtain ⟨child, live₃, isChild, done⟩ := bind_eq_ok done
    cases isChild
    obtain ⟨reported, live₄, -, done⟩ := bind_eq_ok done
    obtain ⟨others, live₅, behind, done⟩ := bind_eq_ok done
    cases done
    intro b member
    cases alive with
    | false => exact ih behind b member
    | true =>
      rcases List.mem_cons.1 member with rfl | member
      · exact Code.alive_of_resolveWith resolved
      · exact ih behind b member

theorem Code.alive_of_expandRelations {label : String} {relations : List Relation}
    {branches : List Branch}
    (done : code.expandRelations findall s label relations live = (.ok branches, live')) :
    ∀ b ∈ branches, b.child.failed = false := by
  induction relations generalizing live branches with
  | nil =>
    cases done
    intro b member
    cases member
  | cons r rest ih =>
    unfold Code.expandRelations at done
    split at done
    · obtain ⟨_, live₁, -, done⟩ := bind_eq_ok done
      obtain ⟨rows, live₂, -, done⟩ := bind_eq_ok done
      obtain ⟨first, live₃, here, done⟩ := bind_eq_ok done
      obtain ⟨others, live₄, behind, done⟩ := bind_eq_ok done
      cases done
      intro b member
      rcases List.mem_append.1 member with member | member
      · exact Code.alive_of_expandRows here b member
      · exact ih behind b member
    · exact ih done

/-- The successors of a state have not failed. -/
theorem Code.alive_of_outlinks {links : List Outlink} (done : (code.outlinks s live).1 = .ok links) :
    ∀ o ∈ links, o.child.failed = false := by
  rcases ran : code.outlinks s live with ⟨result, live'⟩
  rw [ran] at done
  cases done
  unfold Code.outlinks at ran
  obtain ⟨branches, live₁, expanded, equal⟩ := bind_eq_ok ran
  cases equal
  have alive : ∀ b ∈ branches, b.child.failed = false := by
    unfold Code.expand Code.expandWith at expanded
    split at expanded
    · cases expanded
      intro b member
      cases member
    rcases pending : s.pending with _ | label
    · rw [pending] at expanded
      cases expanded
      intro b member
      cases member
    rw [pending] at expanded
    obtain ⟨byClauses, live₂, clauses, expanded⟩ := bind_eq_ok expanded
    obtain ⟨byRelations, live₃, relations, equal⟩ := bind_eq_ok expanded
    cases equal
    intro b member
    rcases List.mem_append.1 member with member | member
    · exact Code.alive_of_expandClauses clauses b member
    · exact Code.alive_of_expandRelations relations b member
  intro o member
  obtain ⟨b, isBranch, rfl⟩ := List.mem_map.1 member
  exact alive b isBranch

/-- The start state of a query has not failed. -/
theorem Machine.alive_of_startQuery {m m' : Machine} {q : Query} {start : State}
    (started : m.startQuery q = (.ok start, m')) : start.failed = false := by
  obtain ⟨s, m₁, started', -, -, represents⟩ := m.startQuery_represents q
  rw [started'] at started
  cases started
  exact represents.failed

end

end ProofWalk
