import ProofWalk.Proofs.Grounding.Decoding
import ProofWalk.Proofs.Grounding.Index
import ProofWalk.Proofs.ProofGraph.Explored

/-!
# Orders of expansion

What a proof graph records does not depend on the order in which its nodes are expanded. The first states
that are met of the classes differ, and so do their numbers, but states with equal keys have the same
steps: two graphs of one query that have been asked for the same keys differ by a renumbering of their
nodes only.

## Main definitions

* `ProofGraph.Matches` — one graph is another with its nodes numbered anew
* `ProofGraph.solutions` — the answers that a graph has found
* `ProofGraph.Twins` — the nodes of two graphs that stand for one class
* `ProofGraph.Siblings` — two graphs that have been asked for the same keys

## Main results

* `ProofGraph.Siblings.exists_twin` — every node of one graph has a twin in the other
* `ProofGraph.Matches.solutions_perm` — matching graphs have found the same answers
* `ProofGraph.exists_matches_of_explored` — graphs that have been asked for the same keys match
-/

namespace ProofWalk

/-- States with equal keys that runs arrive at are alike: both are completed or neither, they bind the
variables of the query alike, and their steps fail alike or lead under the same features to states with
equal keys. -/
def Machine.Alike (m : Machine) (start : State) : Prop :=
  ∀ s s', m.Reaches start s → m.Reaches start s' → m.code.key s = m.code.key s' →
    s.completed = s'.completed ∧ m.code.bindings s = m.code.bindings s' ∧
      m.labelledSteps s = m.labelledSteps s'

/-- What a link tells: where it leads to, and its features with their weights. -/
def Link.told (l : Link) : Nat × List (Option String × Float) :=
  (l.child, l.features.map fun feature => (some feature.1, feature.2))

/-- Edges tell what the links tell that they record. -/
theorem FeatureTable.Transcribes.map_told {t : FeatureTable} (lawful : t.Lawful) {links : List Link}
    {edges : List Edge} (transcribes : t.Transcribes links edges) :
    edges.map (Edge.told t) = links.map Link.told := by
  rw [← List.forall₂_eq_eq_eq, List.forall₂_map_left_iff, List.forall₂_map_right_iff]
  refine transcribes.flip.imp fun edge link transcribed => Prod.ext transcribed.1 ?_
  change edge.labels.map _ = link.features.map _
  rw [← List.forall₂_eq_eq_eq, List.forall₂_map_left_iff, List.forall₂_map_right_iff]
  refine transcribed.2.flip.imp fun label feature named => ?_
  rw [(lawful.inverse _ _).1 named.1, named.2]

namespace ProofGraph

/-- One graph is another with its nodes numbered anew: the start keeps its number, nodes keep their keys,
whether they are completed and what they answer, and their edges tell the same in the same order. -/
structure Matches (σ : Nat → Nat) (g g' : ProofGraph) : Prop where
  bijective : Set.BijOn σ (Set.Icc 1 g.store.nodeCount) (Set.Icc 1 g'.store.nodeCount)
  start : σ 1 = 1
  state : ∀ u s, g.store.state? u = some s → ∃ s', g'.store.state? (σ u) = some s' ∧
    g.code.key s = g'.code.key s' ∧ s.completed = s'.completed ∧ g.fill s = g'.fill s'
  edges : ∀ u ∈ Set.Icc 1 g.store.nodeCount,
    (g.store.edges u).map (fun edge => Prod.map σ id (edge.told g.features)) =
      (g'.store.edges (σ u)).map (Edge.told g'.features)

/-- The answer at a node, if its state completes the proof. -/
def solution? (g : ProofGraph) (u : Nat) : Option Query :=
  (g.store.state? u).bind fun s => if s.completed then some (g.fill s) else none

/-- The answers that a graph has found, in the order of its nodes. -/
def solutions (g : ProofGraph) : List Query := g.store.nodes.filterMap g.solution?

/-! ### What a renumbering keeps -/

namespace Matches

variable {σ : Nat → Nat} {g g' : ProofGraph}

/-- The nodes of the second graph are those of the first by their new numbers. -/
theorem nodes_perm (same : Matches σ g g') : (g.store.nodes.map σ).Perm g'.store.nodes := by
  have nodup (g : ProofGraph) : g.store.nodes.Nodup :=
    List.Nodup.map (fun _ _ => Nat.succ.inj) List.nodup_range
  refine (List.perm_ext_iff_of_nodup ?_ (nodup g')).2 fun v => ?_
  · exact (nodup g).map_on fun u member u' member' equal =>
      same.bijective.injOn (GraphStore.mem_nodes.1 member) (GraphStore.mem_nodes.1 member') equal
  · rw [List.mem_map, GraphStore.mem_nodes, ← Set.mem_Icc, ← same.bijective.image_eq, Set.mem_image]
    simp only [GraphStore.mem_nodes, Set.mem_Icc]

theorem nodeCount_eq (same : Matches σ g g') : g.store.nodeCount = g'.store.nodeCount := by
  simpa [GraphStore.nodes] using same.nodes_perm.length_eq

theorem edgeCount_eq (same : Matches σ g g') (coherent : g.Coherent) (coherent' : g'.Coherent) :
    g.store.edgeCount = g'.store.edgeCount := by
  obtain ⟨states, holds⟩ := coherent.holds
  obtain ⟨states', holds'⟩ := coherent'.holds
  rw [holds.edgeCount, holds'.edgeCount, ← holds.count, ← holds'.count]
  refine Finset.sum_nbij σ (fun u member => ?_) (by simpa using same.bijective.injOn)
    (by simpa using same.bijective.surjOn) fun u member => ?_
  · simpa using same.bijective.mapsTo (by simpa using member)
  · simpa using congrArg List.length (same.edges u (by simpa using member))

/-- Matching graphs have found the same answers. -/
theorem solutions_perm (same : Matches σ g g') (coherent : g.Coherent) :
    g.solutions.Perm g'.solutions := by
  have each : ∀ u ∈ g.store.nodes, g.solution? u = g'.solution? (σ u) := by
    intro u member
    obtain ⟨s, known⟩ := coherent.exists_state (GraphStore.mem_nodes.1 member)
    obtain ⟨s', known', -, completed, answer⟩ := same.state u s known
    rw [solution?, solution?, known, known', Option.bind_some, Option.bind_some, completed, answer]
  have renumbered : g.solutions = (g.store.nodes.map σ).filterMap g'.solution? := by
    rw [solutions, List.filterMap_map]
    exact List.filterMap_congr each
  rw [renumbered]
  exact same.nodes_perm.filterMap _

end Matches

/-! ### Two graphs that have been asked for the same keys -/

/-- What the steps of the machine show: their features and the keys that they lead to. -/
def shownSteps (g : ProofGraph) (s : State) : Except Error (List (FeatureMap × Key)) :=
  (g.steps s).map fun steps => steps.map fun o => (o.features, g.code.key o.child)

/-- The nodes of two graphs that stand for one class. -/
def Twins (g g' : ProofGraph) (u v : Nat) : Prop :=
  ∃ s s', g.store.state? u = some s ∧ g'.store.state? v = some s' ∧ g.code.key s = g'.code.key s'

section
variable {m : Machine} {start s s' : State} {keys keys' : List Key} {g g' : ProofGraph} {u v w : Nat}
  {e e' : Expansion}

theorem Merges.shownSteps_eq (merges : g.Merges m start) (alive : s.failed = false) :
    g.shownSteps s = if s.completed then .ok [] else m.labelledSteps s := by
  have linked : (m.outlinks s).1 = (g.machine.outlinks s).1 :=
    Machine.outlinks_live merges.code.symm s
  rw [shownSteps, steps, alive, Bool.or_false]
  split
  · rfl
  · rw [Machine.labelledSteps, linked, ← merges.code]
    rfl

theorem Twins.symm (twins : Twins g g' u v) : Twins g' g v u := by
  obtain ⟨s, s', known, known', same⟩ := twins
  exact ⟨s', s, known', known, same.symm⟩

/-- A node has one twin at most. -/
theorem Twins.unique (coherent : g'.Coherent) (twins : Twins g g' u v) (others : Twins g g' u w) :
    v = w := by
  obtain ⟨s, s', known, known', same⟩ := twins
  obtain ⟨r, r', isState, isState', same'⟩ := others
  rw [known] at isState
  cases isState
  exact coherent.eq_of_key known' isState' (same.symm.trans same')

/-- Twins are completed or not and answer alike, and their steps show the same. -/
theorem Grown.alike (grown : Grown m start keys g) (grown' : Grown m start keys' g')
    (alike : m.Alike start) (known : g.store.state? u = some s) (known' : g'.store.state? v = some s')
    (same : g.code.key s = g'.code.key s') :
    s.completed = s'.completed ∧ g.code.bindings s = g'.code.bindings s' ∧
      g.shownSteps s = g'.shownSteps s' := by
  have reaches := grown.merges.reaches grown.coherent known
  have reaches' := grown'.merges.reaches grown'.coherent known'
  rw [grown.merges.code, grown'.merges.code] at same
  obtain ⟨completed, bindings, steps⟩ := alike s s' reaches reaches' same
  refine ⟨completed, ?_, ?_⟩
  · rw [grown.merges.code, grown'.merges.code, bindings]
  · rw [grown.merges.shownSteps_eq (grown.coherent.alive u s known),
      grown'.merges.shownSteps_eq (grown'.coherent.alive v s' known'), completed, steps]

/-- The nodes that stand for equal keys are twins. -/
theorem StandsFor.twins (stands : g.StandsFor u s) (stands' : g'.StandsFor v s')
    (same : g.code.key s = g'.code.key s') : Twins g g' u v := by
  obtain ⟨r, known, isKey⟩ := stands
  obtain ⟨r', known', isKey'⟩ := stands'
  exact ⟨r, r', known, known', isKey.trans (same.trans isKey'.symm)⟩

/-- Links with equal features to twins. -/
def TwinLinks (g g' : ProofGraph) : List Link → List Link → Prop :=
  List.Forall₂ fun l l' => Twins g g' l.child l'.child ∧ l.features = l'.features

/-- Links to nodes of successors that show the same lead to twins. -/
theorem twinLinks_of_steps {steps steps' : List Outlink} {links links' : List Link}
    (stand : List.Forall₂ (fun o l => g.StandsFor l.child o.child ∧ l.features = o.features) steps links)
    (stand' : List.Forall₂ (fun o l => g'.StandsFor l.child o.child ∧ l.features = o.features)
      steps' links')
    (same : steps.map (fun o => (o.features, g.code.key o.child)) =
      steps'.map fun o => (o.features, g'.code.key o.child)) : TwinLinks g g' links links' := by
  induction stand generalizing steps' links' with
  | nil =>
    cases stand' with
    | nil => exact .nil
    | cons => cases same
  | cons first _ ih =>
    cases stand' with
    | nil => cases same
    | cons first' others' =>
      obtain ⟨heads, rest⟩ := List.cons.inj same
      obtain ⟨features, key⟩ := Prod.mk.inj heads
      refine .cons ⟨first.1.twins first'.1 key, ?_⟩ (ih others' rest)
      rw [first.2, first'.2, features]

/-- The expansions of twins show links to twins. -/
theorem Shows.twinLinks (coherent : g.Coherent) (coherent' : g'.Coherent) (starts : Twins g g' 1 1)
    (shows : g.Shows u s e) (shows' : g'.Shows v s' e') (twins : Twins g g' u v)
    (completed : s.completed = s'.completed) (same : g.shownSteps s = g'.shownSteps s') :
    TwinLinks g g' e.base e'.base ∧ TwinLinks g g' (e.links true) (e'.links true) := by
  obtain ⟨steps, links, made, base, stand⟩ := shows.base
  obtain ⟨steps', links', made', base', stand'⟩ := shows'.base
  rw [shownSteps, shownSteps, made, made'] at same
  have successors : TwinLinks g g' e.base e'.base := by
    rw [base, base', coherent.startId, coherent'.startId]
    exact List.rel_append (twinLinks_of_steps stand stand' (Except.ok.inj same))
      (.cons ⟨starts, rfl⟩ .nil)
  refine ⟨successors, List.rel_append (?_ : TwinLinks g g' _ _) successors⟩
  -- a loop tells whether it is at the start
  have atStart : u = 1 ↔ v = 1 := by
    constructor
    · rintro rfl
      exact Twins.unique coherent' twins starts
    · rintro rfl
      exact Twins.unique coherent twins.symm starts.symm
  rw [if_pos rfl, if_pos rfl, shows.loop, shows'.loop, completed, coherent.startId, coherent'.startId]
  simp only [atStart]
  split
  · exact .cons ⟨twins, rfl⟩ .nil
  · exact .nil

/-- Two graphs that have been asked for the same keys, all of which have been answered. -/
structure Siblings (m : Machine) (start : State) (keys : List Key) (g g' : ProofGraph) : Prop where
  alike : m.Alike start
  first : Grown m start keys g
  second : Grown m start keys g'
  answered : ∀ key ∈ keys, g.Answered key
  answered' : ∀ key ∈ keys, g'.Answered key

namespace Siblings

theorem symm (siblings : Siblings m start keys g g') : Siblings m start keys g' g :=
  ⟨siblings.alike, siblings.second, siblings.first, siblings.answered', siblings.answered⟩

theorem code (siblings : Siblings m start keys g g') : g.code = g'.code :=
  siblings.first.merges.code.trans siblings.second.merges.code.symm

theorem starts (siblings : Siblings m start keys g g') : Twins g g' 1 1 := by
  refine ⟨_, _, siblings.first.coherent.start, siblings.second.coherent.start, ?_⟩
  rw [siblings.first.origin, siblings.second.origin, siblings.code]

/-- A node that has given links has a twin that has given links to twins. -/
theorem exists_expanded (siblings : Siblings m start keys g g') (found : g.expansions[u]? = some e) :
    ∃ v e', Twins g g' u v ∧ g'.expansions[v]? = some e' ∧ TwinLinks g g' e.base e'.base ∧
      TwinLinks g g' (e.links true) (e'.links true) := by
  obtain ⟨s, shows⟩ := siblings.first.coherent.shows u e found
  have asked := siblings.first.expansion u s shows.state (by rw [found]; rfl)
  obtain ⟨v, s', known', same, answer⟩ := siblings.answered' _ asked
  have twins : Twins g g' u v := ⟨s, s', shows.state, known', same.symm⟩
  obtain ⟨completed, -, shown⟩ :=
    siblings.first.alike siblings.second siblings.alike shows.state known' same.symm
  rcases answer with given | ⟨err, stuck⟩
  · obtain ⟨e', found'⟩ := Option.isSome_iff_exists.1 given
    obtain ⟨r, shows'⟩ := siblings.second.coherent.shows v e' found'
    have isState := shows'.state
    rw [known'] at isState
    cases isState
    exact ⟨v, e', twins, found', shows.twinLinks siblings.first.coherent siblings.second.coherent
      siblings.starts shows' twins completed shown⟩
  · -- the machine does not fail at one of two twins only
    obtain ⟨steps, links, made, -⟩ := shows.base
    rw [shownSteps, shownSteps, made, stuck] at shown
    cases shown

/-- Every node has a twin: it is the start, or its key has been asked for, or it is the child of a node
that has given links, and then the twin of that node has a child that is its twin. -/
theorem exists_twin (siblings : Siblings m start keys g g') (known : g.store.state? u = some s) :
    ∃ v, Twins g g' u v := by
  obtain rfl | asked | ⟨w, e, found, l, member, rfl⟩ := siblings.first.node u s known
  · exact ⟨1, siblings.starts⟩
  · obtain ⟨v, s', known', same, -⟩ := siblings.answered' _ asked
    exact ⟨v, s, s', known, known', same.symm⟩
  · obtain ⟨w', e', -, -, base, -⟩ := siblings.exists_expanded found
    obtain ⟨l', -, twins, -⟩ := exists_of_forall₂ base.flip member
    exact ⟨l'.child, twins⟩

/-- The edges of twins tell the same, under any renumbering that takes nodes to their twins. -/
theorem told_eq (siblings : Siblings m start keys g g') {σ : Nat → Nat}
    (renumbers : ∀ u ∈ Set.Icc 1 g.store.nodeCount, Twins g g' u (σ u)) (twins : Twins g g' u v) :
    (g.store.edges u).map (fun edge => Prod.map σ id (edge.told g.features)) =
      (g'.store.edges v).map (Edge.told g'.features) := by
  have coherent := siblings.first.coherent
  have coherent' := siblings.second.coherent
  cases found : g.expansions[u]? with
  | none =>
    -- then the twin has not given links either
    have found' : g'.expansions[v]? = none := by
      cases found' : g'.expansions[v]? with
      | none => rfl
      | some e' =>
        obtain ⟨w, e, twins', given, -⟩ := siblings.symm.exists_expanded found'
        rw [twins'.unique coherent twins.symm, found] at given
        cases given
    have none : g.store.edges u = [] := by
      refine coherent.unrecorded u fun e given => ?_
      rw [found] at given
      cases given
    have none' : g'.store.edges v = [] := by
      refine coherent'.unrecorded v fun e given => ?_
      rw [found'] at given
      cases given
    rw [none, none']
    rfl
  | some e =>
    obtain ⟨w, e', twins', found', -, links⟩ := siblings.exists_expanded found
    rw [twins'.unique coherent' twins] at found'
    have recorded := coherent.recorded u e true found (siblings.first.form u e found)
    have recorded' := coherent'.recorded v e' true found' (siblings.second.form v e' found')
    rw [← Function.comp_def, ← List.map_map, recorded.map_told coherent.lawful,
      recorded'.map_told coherent'.lawful, List.map_map, ← List.forall₂_eq_eq_eq,
      List.forall₂_map_left_iff, List.forall₂_map_right_iff]
    refine links.imp fun l l' ⟨child, features⟩ => ?_
    obtain ⟨s, s', known, -⟩ := id child
    rw [Function.comp_apply, Link.told, Link.told, features,
      ← (renumbers l.child (coherent.bounds known)).unique coherent' child]
    rfl

/-- Graphs that have been asked for the same keys match, each node with its twin. -/
theorem exists_matches (siblings : Siblings m start keys g g')
    (query : g.labelled.query = g'.labelled.query) : ∃ σ, Matches σ g g' := by
  have coherent := siblings.first.coherent
  have coherent' := siblings.second.coherent
  have total (u : Nat) : ∃ v, u ∈ Set.Icc 1 g.store.nodeCount → Twins g g' u v := by
    by_cases inside : u ∈ Set.Icc 1 g.store.nodeCount
    · obtain ⟨s, known⟩ := coherent.exists_state inside
      obtain ⟨v, twins⟩ := siblings.exists_twin known
      exact ⟨v, fun _ => twins⟩
    · exact ⟨0, fun isInside => absurd isInside inside⟩
  choose σ renumbers using total
  refine ⟨σ, ⟨fun u inside => ?_, fun u inside w inside' equal => ?_, fun v inside => ?_⟩, ?_,
    fun u s known => ?_, fun u inside => siblings.told_eq renumbers (renumbers u inside)⟩
  -- twins are nodes, no two nodes have one twin, and every node is one
  · obtain ⟨s, s', -, known', -⟩ := renumbers u inside
    exact coherent'.bounds known'
  · have twins := renumbers u inside
    rw [equal] at twins
    exact twins.symm.unique coherent (renumbers w inside').symm
  · obtain ⟨s', known'⟩ := coherent'.exists_state inside
    obtain ⟨u, twins⟩ := siblings.symm.exists_twin known'
    obtain ⟨-, s, -, known, -⟩ := id twins
    have isNode := coherent.bounds known
    exact ⟨u, isNode, (renumbers u isNode).unique coherent' twins.symm⟩
  · exact (renumbers 1 (coherent.bounds coherent.start)).unique coherent' siblings.starts
  · obtain ⟨r, s', isState, known', same⟩ := renumbers u (coherent.bounds known)
    rw [known] at isState
    cases isState
    obtain ⟨completed, bindings, -⟩ :=
      siblings.first.alike siblings.second siblings.alike known known' same
    refine ⟨s', known', same, completed, ?_⟩
    rw [fill, fill, Code.fill, Code.fill, query, bindings]

end Siblings

end

/-! ### Graphs of one query -/

section
variable {rules : List Rule} {program : Program} {relations : List Relation} {kind kind' : GraphKind}
  {labelled labelled' : LabelledExample} {features features' : FeatureTable} {keys keys' : List Key}
  {g₀ g₀' g g' : ProofGraph}

/-- A new graph is of the machine that has been asked its query. -/
theorem exists_started (made : ProofGraph.new kind labelled program relations features = .ok g) :
    ∃ m, (Machine.new program relations).startQuery labelled.query = (.ok g.start, m) ∧
      g.code = m.code ∧ g.labelled = labelled := by
  unfold ProofGraph.new at made
  split at made
  · cases made
  rename_i start m started
  cases made
  exact ⟨m, started, rfl, rfl⟩

/-- New graphs of one query ask the same machine about the same start. -/
theorem machine_eq_of_new (query : labelled.query = labelled'.query)
    (made : ProofGraph.new kind labelled program relations features = .ok g₀)
    (made' : ProofGraph.new kind' labelled' program relations features' = .ok g₀') :
    g₀.machine = g₀'.machine ∧ g₀.start = g₀'.start := by
  obtain ⟨m, started, isCode, -⟩ := exists_started made
  obtain ⟨m', started', isCode', -⟩ := exists_started made'
  rw [← query, started] at started'
  refine ⟨?_, Except.ok.inj (Prod.mk.inj started').1⟩
  rw [machine, machine, isCode, isCode', (Prod.mk.inj started').2]

/-- What runs of its machine arrive at is told by keys. -/
theorem alike_of_new (compiled : compileRules rules = .ok program)
    (builtIn : ∀ relation ∈ relations, relation.isBuiltIn)
    (fits : ∀ rule ∈ rules, ∀ goal ∈ rule.rhs, goal.arity < Text.wordLimit)
    (fitsQuery : ∀ goal ∈ labelled.query.goals, goal.arity < Text.wordLimit)
    (made : ProofGraph.new kind labelled program relations features = .ok g) :
    g.machine.Alike g.start := by
  obtain ⟨m, started, isCode, -⟩ := exists_started made
  obtain ⟨installed, first⟩ := Reached.start _ fitsQuery started
  have obeys := (Machine.new program relations).obeys_ofRules compiled
    (fun relation member => Relation.fits (builtIn relation member)) labelled.query
  have count : m.code.queryRegisters = labelled.query.vars.length := by
    rw [installed]
    rfl
  rw [← installed, ← isCode] at obeys
  rw [← isCode] at first count
  have fitsClauses : ∀ clause ∈ numbered rules, ∀ goal ∈ clause.1.rhs, goal.arity < Text.wordLimit :=
    fun clause member => fits clause.1 (fst_mem_of_mem_numbered member)
  intro s s' reaches reaches' same
  obtain ⟨r, silent, reached⟩ := reaches.reached obeys fitsClauses first
  obtain ⟨r', silent', reached'⟩ := reaches'.reached obeys fitsClauses first
  exact reached.alike reached' obeys fitsClauses count same

/-- Whatever the order and the kind of calls, graphs of one query that have been asked for links of the same
keys match: they have as many nodes and edges and have found the same answers. -/
theorem exists_matches_of_explored (compiled : compileRules rules = .ok program)
    (builtIn : ∀ relation ∈ relations, relation.isBuiltIn)
    (fits : ∀ rule ∈ rules, ∀ goal ∈ rule.rhs, goal.arity < Text.wordLimit)
    (fitsQuery : ∀ goal ∈ labelled.query.goals, goal.arity < Text.wordLimit)
    (query : labelled.query = labelled'.query) (lawful : features.Lawful) (lawful' : features'.Lawful)
    (made : ProofGraph.new kind labelled program relations features = .ok g₀)
    (made' : ProofGraph.new kind' labelled' program relations features' = .ok g₀')
    (explored : Explored g₀ keys g) (explored' : Explored g₀' keys' g')
    (same : ∀ key, key ∈ keys ↔ key ∈ keys') :
    (∃ σ, Matches σ g g') ∧ g.store.nodeCount = g'.store.nodeCount ∧
      g.store.edgeCount = g'.store.edgeCount ∧ g.solutions.Perm g'.solutions := by
  obtain ⟨-, -, -, isLabelled⟩ := exists_started made
  obtain ⟨-, -, -, isLabelled'⟩ := exists_started made'
  obtain ⟨machines, starts⟩ := machine_eq_of_new query made made'
  obtain ⟨grown, more, answered⟩ := explored.grown (grown_new lawful made)
  obtain ⟨grown', more', answered'⟩ := explored'.grown (grown_new lawful' made')
  rw [← machines, ← starts] at grown'
  have siblings : Siblings g₀.machine g₀.start keys g g' :=
    { alike := alike_of_new compiled builtIn fits fitsQuery made
      first := grown
      second := grown'.mono fun key => (same key).2
      answered := answered
      answered' := fun key asked => answered' key ((same key).1 asked) }
  obtain ⟨σ, matched⟩ := siblings.exists_matches (by
    rw [more.labelled, more'.labelled, isLabelled, isLabelled', query])
  exact ⟨⟨σ, matched⟩, matched.nodeCount_eq, matched.edgeCount_eq grown.coherent grown'.coherent,
    matched.solutions_perm grown.coherent⟩

/-- The answer can be asked for before it is a node. -/
theorem exists_called_factEnd (made : ProofGraph.new kind askFact factProgram [] .empty = .ok g)
    (isCode : g.code = askedFact.2.code) (isStart : g.start = factStart) :
    ∃ (e : Expansion) (g' : ProofGraph),
      g.call (.outlinks factEnd true) = (.ok (.links (e.links true)), g') ∧ g'.Coherent ∧
        g.Extends g' ∧ g'.expansions[1]? = none ∧ g'.features.Room 3 := by
  obtain ⟨coherent, -, none, noFeatures, count⟩ := coherent_new FeatureTable.lawful_empty made
  have alive : factEnd.failed = false := Bool.eq_false_of_not_eq_true (by decide +kernel)
  have fresh := coherent.classes_factEnd isCode isStart count
  -- it comes to stand at a node of its own
  obtain ⟨first, known, -⟩ := coherent.classNode_of_fresh fresh
  obtain ⟨coherent₁, more₁, -, expansions₁, -⟩ := coherent.classNode alive
  have named : g.idFor factEnd = g.classNode factEnd := by
    obtain ⟨states, holds⟩ := coherent.holds
    rw [idFor]
    cases found : g.store.idOf? factEnd with
    | none => rfl
    | some u =>
      have inClass := coherent.represented u _ ((holds.id _ u).1 found)
      rw [fresh] at inClass
      cases inClass
  -- there it has no steps
  have ended : (g.classNode factEnd).2.steps factEnd = .ok [] := by
    have completed : factEnd.completed = true := by decide +kernel
    rw [steps, completed]
    rfl
  have room₁ : (g.classNode factEnd).2.features.Room 5 := by
    rw [g.classNode_features factEnd, noFeatures]
    exact ⟨by decide, by decide⟩
  obtain ⟨e, g', done, room, -, -, -, others⟩ :=
    coherent₁.expanded_of_room known (by rw [expansions₁, none]) ended 3 room₁
  obtain ⟨coherent', more', -⟩ := coherent₁.expanded done
  have other : (1 : Nat) ≠ g.store.nodeCount + 1 := by omega
  refine ⟨e, g', ?_, coherent', more₁.trans more', by rw [others 1 other, expansions₁, none], room⟩
  rw [coherent.call_of_about (c := .outlinks factEnd true) rfl, named, first,
    show (Call.outlinks factEnd true).loops = true from rfl, done]
  rfl

/-- Then the question can be asked for. -/
theorem exists_explored_fact (made : ProofGraph.new kind askFact factProgram [] .empty = .ok g)
    (isCode : g.code = askedFact.2.code) (isStart : g.start = factStart) :
    ∃ g', Explored g [g.code.key factStart, g.code.key factEnd] g' := by
  obtain ⟨e₁, g₁, called, coherent₁, more₁, unexpanded, room⟩ :=
    exists_called_factEnd made isCode isStart
  have start : g.store.state? 1 = some factStart :=
    isStart ▸ (coherent_new FeatureTable.lawful_empty made).1.start
  have linked : (g.machine.outlinks factStart).1 = .ok [{ child := factEnd, features := [("go", 1)] }] :=
    outlinks_factStart isCode
  have reaches : g.machine.Reaches g.start factEnd :=
    isStart ▸ .step .start linked (List.mem_singleton_self _)
  have explored₁ := Explored.none.asked (c := .outlinks factEnd true) rfl (.inr reaches) rfl
    (by rw [called]; rintro ⟨⟩)
  rw [called] at explored₁
  have start₁ := more₁.state 1 _ start
  obtain ⟨e₂, g₂, done, -⟩ := coherent₁.expanded_of_room start₁ unexpanded
    (steps_factStart (more₁.code.trans isCode)) 0 room
  have explored₂ := explored₁.asked (c := .idOutlinks 1 true) start₁ (.inl ⟨1, start₁⟩) rfl
    (by rw [call_idOutlinks done]; rintro ⟨⟩)
  rw [more₁.code] at explored₂
  exact ⟨_, explored₂⟩

/-- A question and its answer that are asked for in turn, and the other way round in a graph of the other
kind. -/
theorem exists_matches_of_explored_fact : ∃ g₀ g₀' g g' : ProofGraph,
    ProofGraph.new .cachingId askFact factProgram [] .empty = .ok g₀ ∧
    ProofGraph.new .state askFact factProgram [] .empty = .ok g₀' ∧
    Explored g₀ [g₀.code.key factEnd, g₀.code.key factStart] g ∧
    Explored g₀' [g₀'.code.key factStart, g₀'.code.key factEnd] g' ∧
    (∃ σ, Matches σ g g') ∧ g.store.nodeCount = g'.store.nodeCount ∧
      g.store.edgeCount = g'.store.edgeCount ∧ g.solutions.Perm g'.solutions := by
  obtain ⟨g₀, made, isCode, isStart⟩ := exists_factGraph .cachingId .empty
  obtain ⟨g₀', made', isCode', isStart'⟩ := exists_factGraph .state .empty
  obtain ⟨g₁, g₂, e₁, e₂, graphs⟩ :=
    exists_factGraphs FeatureTable.lawful_empty ⟨by decide, by decide⟩ made isCode isStart
  obtain ⟨g', explored'⟩ := exists_explored_fact made' isCode' isStart'
  have start : g₀.store.state? 1 = some factStart :=
    isStart ▸ (coherent_new FeatureTable.lawful_empty made).1.start
  obtain ⟨coherent₁, more₁, -⟩ :=
    (coherent_new FeatureTable.lawful_empty made).1.expanded graphs.first
  have first := call_idOutlinks graphs.first
  have second := call_idDegree graphs.second
  have isEnd₁ : g₁.store.state? 2 = some factEnd := by
    obtain ⟨s, known⟩ := coherent₁.exists_state (u := 2) ⟨by decide, graphs.count₁.ge⟩
    obtain ⟨-, more₂, -⟩ := coherent₁.expanded graphs.second
    exact more₂.eq_of_state known graphs.isEnd ▸ known
  have explored₁ := Explored.none.asked (c := .idOutlinks 1 true) start (.inl ⟨1, start⟩) rfl
    (by rw [first]; rintro ⟨⟩)
  rw [first] at explored₁
  have explored := explored₁.asked (c := .idDegree 2 true) isEnd₁ (.inl ⟨2, isEnd₁⟩) rfl
    (by rw [second]; rintro ⟨⟩)
  rw [second, more₁.code] at explored
  have codes : g₀.code = g₀'.code := isCode.trans isCode'.symm
  refine ⟨g₀, g₀', g₂, g', made, made', explored, explored', ?_⟩
  exact exists_matches_of_explored compileRules_factRules (fun _ member => by cases member) (by decide)
    (by decide) rfl FeatureTable.lawful_empty FeatureTable.lawful_empty made made' explored explored'
    fun key => by rw [codes, List.mem_pair, List.mem_pair, or_comm]

end

end ProofGraph

end ProofWalk
