import ProofWalk.Proofs.Features
import ProofWalk.Proofs.ProofGraph.Stores
import ProofWalk.Proofs.Machine.Expansion
import ProofWalk.Proofs.Prover.Known
import ProofWalk.ProofGraph.Basic

/-!
# What a proof graph records

A proof graph grows only by the links of its nodes. Each node is the state of one class. The links of a
node lead to the nodes of the successors of its state, then back to the start, and the edges in the
store are these links with the features by their numbers. All this holds of a new graph and is kept
whenever links are asked for and given.

## Main definitions

* `FeatureTable.Transcribes` — edges are links with the features by their numbers
* `ProofGraph.StandsFor`, `ProofGraph.Shows` — what nodes and expansions stand for
* `ProofGraph.Coherent` — the parts of a proof graph fit together
* `ProofGraph.Extends` — what a graph keeps when it grows

## Main results

* `ProofGraph.coherent_new`, `ProofGraph.Coherent.expanded` — proof graphs are coherent
* `ProofGraph.expanded_again` — to ask twice is to ask once
-/

namespace ProofWalk

/-! ### Edges -/

namespace FeatureTable

/-- Labels are features by their numbers. -/
def Names (t : FeatureTable) (features : FeatureMap) (labels : List (Nat × Float)) : Prop :=
  List.Forall₂ (fun feature label => t.number? feature.1 = some label.1 ∧ label.2 = feature.2)
    features labels

/-- Edges are links with the features by their numbers. -/
def Transcribes (t : FeatureTable) (links : List Link) (edges : List Edge) : Prop :=
  List.Forall₂ (fun link edge => edge.target = link.child ∧ t.Names link.features edge.labels)
    links edges

variable {t t' : FeatureTable}

theorem Names.mono {features : FeatureMap} {labels : List (Nat × Float)} (more : t.Extends t')
    (names : t.Names features labels) : t'.Names features labels :=
  names.imp fun _ _ named => ⟨more _ _ named.1, named.2⟩

theorem Transcribes.mono {links : List Link} {edges : List Edge} (more : t.Extends t')
    (transcribes : t.Transcribes links edges) : t'.Transcribes links edges :=
  transcribes.imp fun _ _ transcribed => ⟨transcribed.1, transcribed.2.mono more⟩

end FeatureTable

namespace ProofGraph

variable {t t' : FeatureTable}

theorem internLabels_spec (lawful : t.Lawful) {features : FeatureMap} {labels : List (Nat × Float)}
    (done : internLabels t features = (.ok labels, t')) :
    t'.Lawful ∧ t.Extends t' ∧ t'.Names features labels := by
  induction features generalizing t labels with
  | nil =>
    cases done
    exact ⟨lawful, .refl _, .nil⟩
  | cons feature rest ih =>
    obtain ⟨name, weight⟩ := feature
    unfold internLabels at done
    split at done
    · cases done
    rename_i n t₁ first
    obtain ⟨lawful₁, extends₁, number⟩ := FeatureTable.intern_spec lawful first
    split at done
    · rename_i others t₂ behind
      cases done
      obtain ⟨lawful', extends', names⟩ := ih lawful₁ behind
      exact ⟨lawful', extends₁.trans extends', .cons ⟨extends' _ _ number, rfl⟩ names⟩
    · cases done

theorem edgesOf_spec (lawful : t.Lawful) {links : List Link} {edges : List Edge}
    (done : edgesOf t links = (.ok edges, t')) :
    t'.Lawful ∧ t.Extends t' ∧ t'.Transcribes links edges := by
  induction links generalizing t edges with
  | nil =>
    cases done
    exact ⟨lawful, .refl _, .nil⟩
  | cons link rest ih =>
    unfold edgesOf at done
    split at done
    · cases done
    rename_i labels t₁ first
    obtain ⟨lawful₁, extends₁, names⟩ := internLabels_spec lawful first
    split at done
    · rename_i others t₂ behind
      cases done
      obtain ⟨lawful', extends', transcribes⟩ := ih lawful₁ behind
      exact ⟨lawful', extends₁.trans extends', .cons ⟨rfl, names.mono extends'⟩ transcribes⟩
    · cases done

/-- The number of features on links. -/
def featureCount (links : List Link) : Nat := (links.map (·.features.length)).sum

/-- Features are numbered as long as numbers last. -/
theorem internLabels_of_room {names : Nat} {features : FeatureMap}
    (room : t.Room (names + features.length)) :
    ∃ labels t', internLabels t features = (.ok labels, t') ∧ t'.Room names := by
  induction features generalizing t with
  | nil => exact ⟨[], t, rfl, room⟩
  | cons feature rest ih =>
    obtain ⟨n, t₁, first, room₁⟩ := FeatureTable.intern_of_room room feature.1
    obtain ⟨labels, t', behind, room'⟩ := ih room₁
    refine ⟨(n, feature.2) :: labels, t', ?_, room'⟩
    simp only [internLabels, first, behind]

/-- So links are recorded as long as numbers last. -/
theorem edgesOf_of_room {names : Nat} {links : List Link} (room : t.Room (names + featureCount links)) :
    ∃ edges t', edgesOf t links = (.ok edges, t') ∧ t'.Room names := by
  induction links generalizing t with
  | nil => exact ⟨[], t, rfl, room⟩
  | cons link rest ih =>
    have total : names + featureCount (link :: rest) =
        names + featureCount rest + link.features.length := by
      simp only [featureCount, List.map_cons, List.sum_cons]
      omega
    rw [total] at room
    obtain ⟨labels, t₁, first, room₁⟩ := internLabels_of_room room
    obtain ⟨edges, t', behind, room'⟩ := ih room₁
    refine ⟨{ target := link.child, labels } :: edges, t', ?_, room'⟩
    simp only [edgesOf, first, behind]

/-! ### Coherence -/

/-- A node stands for a state: it is the node of a state with the same key. -/
def StandsFor (g : ProofGraph) (u : Nat) (s : State) : Prop :=
  ∃ r, g.store.state? u = some r ∧ g.code.key r = g.code.key s

/-- What a graph keeps when it grows. -/
structure Extends (g g' : ProofGraph) : Prop where
  labelled : g'.labelled = g.labelled
  code : g'.code = g.code
  start : g'.start = g.start
  startId : g'.startId = g.startId
  state : ∀ u s, g.store.state? u = some s → g'.store.state? u = some s
  features : g.features.Extends g'.features

/-- What an expansion shows of a node: links to the nodes of all successors of its state, a link back to
the start, and a loop if the proof is complete there. -/
structure Shows (g : ProofGraph) (u : Nat) (s : State) (e : Expansion) : Prop where
  state : g.store.state? u = some s
  base : ∃ steps links, g.steps s = .ok steps ∧
    e.base = links ++ [{ child := g.startId, features := .single restartFeature 1 }] ∧
    List.Forall₂ (fun o l => g.StandsFor l.child o.child ∧ l.features = o.features) steps links
  loop : e.loop =
    if s.completed then
      some { child := u, features := .single (if u = g.startId then startLoopFeature else loopFeature) 1 }
    else none

/-- The parts of a proof graph fit together. -/
structure Coherent (g : ProofGraph) : Prop where
  holds : ∃ states, g.store.Holds states g.store.edges
  startId : g.startId = 1
  start : g.store.state? 1 = some g.start
  alive : ∀ u s, g.store.state? u = some s → s.failed = false
  classes : ∀ key r, g.classes[key]? = some r →
    g.code.key r = key ∧ ∃ u, g.store.state? u = some r
  represented : ∀ u s, g.store.state? u = some s → g.classes[g.code.key s]? = some s
  lawful : g.features.Lawful
  shows : ∀ u e, g.expansions[u]? = some e → ∃ s, g.Shows u s e
  recorded : ∀ u e loops, g.expansions[u]? = some e → e.recorded = some loops →
    g.features.Transcribes (e.links loops) (g.store.edges u)
  unrecorded : ∀ u, (∀ e, g.expansions[u]? = some e → e.recorded = none) → g.store.edges u = []

variable {g g' g'' : ProofGraph} {u : Nat} {s : State} {e : Expansion} {loops : Bool}

theorem Extends.refl (g : ProofGraph) : g.Extends g :=
  ⟨rfl, rfl, rfl, rfl, fun _ _ known => known, .refl _⟩

theorem Extends.trans (first : g.Extends g') (second : g'.Extends g'') : g.Extends g'' where
  labelled := second.labelled.trans first.labelled
  code := second.code.trans first.code
  start := second.start.trans first.start
  startId := second.startId.trans first.startId
  state u s known := second.state u s (first.state u s known)
  features := first.features.trans second.features

/-- A node has the same state in both graphs. -/
theorem Extends.eq_of_state {s' : State} (more : g.Extends g') (known : g.store.state? u = some s)
    (known' : g'.store.state? u = some s') : s = s' :=
  Option.some.inj ((more.state u s known).symm.trans known')

theorem StandsFor.mono (more : g.Extends g') (stands : g.StandsFor u s) : g'.StandsFor u s := by
  obtain ⟨r, known, same⟩ := stands
  refine ⟨r, more.state u r known, ?_⟩
  rw [more.code]
  exact same

theorem steps_of_extends (more : g.Extends g') (s : State) : g'.steps s = g.steps s := by
  rw [steps, steps, more.code]

/-- The steps of the machine lead to states that have not failed. -/
theorem alive_of_steps {steps : List Outlink} (made : g.steps s = .ok steps) :
    ∀ o ∈ steps, o.child.failed = false := by
  unfold ProofGraph.steps at made
  split at made
  · cases made
    intro o member
    cases member
  · exact Code.alive_of_outlinks made

theorem Shows.mono (more : g.Extends g') (shows : g.Shows u s e) : g'.Shows u s e := by
  obtain ⟨known, ⟨steps, links, made, base, stand⟩, loop⟩ := shows
  refine ⟨more.state u s known, ⟨steps, links, ?_, ?_, ?_⟩, ?_⟩
  · rw [steps_of_extends more]
    exact made
  · rw [more.startId]
    exact base
  · exact stand.imp fun _ _ stands => ⟨stands.1.mono more, stands.2⟩
  · rw [more.startId]
    exact loop

/-- To ask a node for its links is to record those that are known, or those that it is expanded to. If it
cannot be expanded nothing changes. -/
theorem expanded_cases (g : ProofGraph) (u : Nat) (loops : Bool) :
    (∃ err, g.expanded u loops = (.error err, g)) ∨
    (∃ e, g.expansions[u]? = some e ∧ g.expanded u loops = g.record u e loops) ∨
    ∃ s e g₁, g.expansions[u]? = none ∧ g.store.state? u = some s ∧ g.expand u s = (.ok e, g₁) ∧
      g.expanded u loops = { g₁ with expansions := g₁.expansions.insert u e }.record u e loops := by
  unfold ProofGraph.expanded
  cases found : g.expansions[u]? with
  | some e => exact .inr (.inl ⟨e, rfl, rfl⟩)
  | none =>
    cases known : g.store.state? u with
    | none => exact .inl ⟨_, rfl⟩
    | some s =>
      rcases expands : g.expand u s with ⟨err | e, g₁⟩
      · have unchanged : g₁ = g := by
          unfold ProofGraph.expand at expands
          split at expands
          · exact (Prod.mk.inj expands).2.symm
          · cases expands
        subst unchanged
        exact .inl ⟨err, by simp only [expands]⟩
      · exact .inr (.inr ⟨s, e, g₁, rfl, rfl, expands, by simp only [expands]⟩)

/-- An expansion that has been recorded is kept, and no other changes. -/
theorem record_current (known : g.expansions[u]? = some e) {e' : Expansion}
    (done : g.record u e loops = (.ok e', g')) :
    g'.expansions[u]? = some e' ∧ e'.isStale loops = false ∧
      ∀ v, v ≠ u → g'.expansions[v]? = g.expansions[v]? := by
  unfold record at done
  split at done
  · split at done
    · cases done
    · cases done
      refine ⟨Std.HashMap.getElem?_insert_self, by cases loops <;> rfl, fun v other => ?_⟩
      change (g.expansions.insert u _)[v]? = _
      rw [Std.HashMap.getElem?_insert, if_neg (by simpa using Ne.symm other)]
  · rename_i current
    cases done
    exact ⟨known, Bool.eq_false_of_not_eq_true current, fun _ _ => rfl⟩

/-- An expansion that has been given is kept and recorded, and no other changes. -/
theorem expanded_current (done : g.expanded u loops = (.ok e, g')) :
    g'.expansions[u]? = some e ∧ e.isStale loops = false ∧
      ∀ v, v ≠ u → g'.expansions[v]? = g.expansions[v]? := by
  rcases g.expanded_cases u loops with ⟨err, failed⟩ | ⟨e₀, found, asked⟩ |
    ⟨s, e₁, g₁, found, known, expand, asked⟩
  · rw [failed] at done
    cases done
  · exact record_current found (asked.symm.trans done)
  · have expansions := (g.expand_expansions u s).1
    rw [expand] at expansions
    have inserted : (g₁.expansions.insert u e₁)[u]? = some e₁ := Std.HashMap.getElem?_insert_self
    obtain ⟨known', current, others⟩ := record_current inserted (asked.symm.trans done)
    refine ⟨known', current, fun v other => ?_⟩
    rw [others v other]
    change (g₁.expansions.insert u e₁)[v]? = _
    rw [Std.HashMap.getElem?_insert, if_neg (by simpa using Ne.symm other), expansions]

namespace Coherent

/-- The nodes are numbered from one. -/
theorem isSome_state (coherent : g.Coherent) :
    (g.store.state? u).isSome ↔ 1 ≤ u ∧ u ≤ g.store.nodeCount := by
  obtain ⟨states, holds⟩ := coherent.holds
  rw [holds.isSome_state, holds.count]

theorem bounds (coherent : g.Coherent) (known : g.store.state? u = some s) :
    1 ≤ u ∧ u ≤ g.store.nodeCount :=
  coherent.isSome_state.1 (by rw [known]; rfl)

theorem exists_state (coherent : g.Coherent) (inside : 1 ≤ u ∧ u ≤ g.store.nodeCount) :
    ∃ s, g.store.state? u = some s :=
  Option.isSome_iff_exists.1 (coherent.isSome_state.2 inside)

/-- The only node of a graph is its start. -/
theorem eq_start (coherent : g.Coherent) (count : g.store.nodeCount = 1)
    (known : g.store.state? u = some s) : u = 1 ∧ s = g.start := by
  have inside := coherent.bounds known
  obtain rfl : u = 1 := by omega
  exact ⟨rfl, Option.some.inj (known.symm.trans coherent.start)⟩

/-- Graphs with the same states have as many nodes. -/
theorem nodeCount_eq (coherent : g.Coherent) (coherent' : g'.Coherent)
    (same : ∀ v, g'.store.state? v = g.store.state? v) : g'.store.nodeCount = g.store.nodeCount := by
  have bound (n : Nat) : (1 ≤ n ∧ n ≤ g'.store.nodeCount) ↔ (1 ≤ n ∧ n ≤ g.store.nodeCount) := by
    rw [← coherent.isSome_state, ← coherent'.isSome_state, same]
  have first := bound g.store.nodeCount
  have second := bound g'.store.nodeCount
  omega

/-- Links that a coherent graph has given lead to its nodes. -/
theorem isSome_child (coherent : g.Coherent) {links : List Link}
    (known : KnowsLinks.known g u = some links) {l : Link} (member : l ∈ links) :
    (g.store.state? l.child).isSome := by
  obtain ⟨e, expansion, rfl⟩ := Option.map_eq_some_iff.1 known
  obtain ⟨s, shows⟩ := coherent.shows u e expansion
  rcases List.mem_append.1 member with loop | base
  · rw [if_pos rfl, shows.loop] at loop
    split at loop
    · rw [Option.toList_some, List.mem_singleton] at loop
      rw [loop, shows.state]
      rfl
    · cases loop
  · obtain ⟨steps, links, -, isBase, stand⟩ := shows.base
    rw [isBase] at base
    rcases List.mem_append.1 base with step | restart
    · obtain ⟨o, -, ⟨⟨r, known', -⟩, -⟩⟩ := exists_of_forall₂ stand step
      rw [known']
      rfl
    · rw [List.mem_singleton.1 restart, coherent.startId, coherent.start]
      rfl

/-- Nodes of states with the same key are one node. -/
theorem eq_of_key (coherent : g.Coherent) {v : Nat} {s' : State} (known : g.store.state? u = some s)
    (known' : g.store.state? v = some s') (same : g.code.key s = g.code.key s') : u = v := by
  obtain ⟨states, holds⟩ := coherent.holds
  have represented := coherent.represented u s known
  rw [same, coherent.represented v s' known'] at represented
  cases represented
  exact Option.some.inj (((holds.id _ u).2 known).symm.trans ((holds.id _ v).2 known'))

/-! ### Growth -/

/-- A state of a class that is known stands at the node of its class, and nothing changes. -/
theorem classNode_of_known (coherent : g.Coherent) {r : State} (found : g.classes[g.code.key s]? = some r) :
    ∃ u, g.store.state? u = some r ∧ g.classNode s = (u, g) := by
  obtain ⟨states, holds⟩ := coherent.holds
  obtain ⟨-, u, known⟩ := coherent.classes _ r found
  have there : g.store.nodeId r = (u, g.store) :=
    holds.nodeId_of_idOf? ((holds.id r u).2 known)
  refine ⟨u, known, ?_⟩
  unfold ProofGraph.classNode representative
  simp only [found, there]

/-- A state comes to stand at a node. -/
theorem classNode (coherent : g.Coherent) (alive : s.failed = false) :
    (g.classNode s).2.Coherent ∧ g.Extends (g.classNode s).2 ∧
      (g.classNode s).2.StandsFor (g.classNode s).1 s ∧
      (g.classNode s).2.expansions = g.expansions ∧
      (g.classNode s).2.store.edges = g.store.edges := by
  cases found : g.classes[g.code.key s]? with
  | some r =>
    obtain ⟨u, known, unchanged⟩ := coherent.classNode_of_known found
    rw [unchanged]
    exact ⟨coherent, .refl g, ⟨r, known, (coherent.classes _ r found).1⟩, rfl, rfl⟩
  | none =>
    obtain ⟨states, holds⟩ := coherent.holds
    -- the state is the first of its key, so that the store does not hold it and gives it the next number
    have fresh : s ∉ states := by
      intro member
      obtain ⟨u, found'⟩ := holds.exists_id member
      rw [coherent.represented u s ((holds.id s u).1 found')] at found
      cases found
    have grown : g.classNode s = ((g.store.nodeId s).1, { g with
        classes := g.classes.insert (g.code.key s) s, store := (g.store.nodeId s).2 }) := by
      unfold ProofGraph.classNode representative
      simp only [found]
    obtain ⟨last, holds'⟩ := holds.nodeId_of_not_mem fresh
    obtain ⟨-, appends⟩ := GraphStore.appends_nodeId (holds.idOf?_eq_none.2 fresh) holds.wide
    have state := appends.state
    rw [holds.count] at state
    have sameEdges : (g.store.nodeId s).2.edges = g.store.edges := funext appends.edges
    rw [grown]
    have more : g.Extends { g with
        classes := g.classes.insert (g.code.key s) s, store := (g.store.nodeId s).2 } := by
      refine ⟨rfl, rfl, rfl, rfl, fun u s' known => ?_, .refl _⟩
      have inside := (holds.isSome_state (u := u)).1 (by rw [known]; rfl)
      exact (state u).trans ((if_neg (by omega)).trans known)
    have isNew : ∀ key, (g.classes.insert (g.code.key s) s)[key]? =
        if g.code.key s = key then some s else g.classes[key]? := by
      intro key
      simp only [Std.HashMap.getElem?_insert, beq_iff_eq]
    refine ⟨⟨⟨states ++ [s], ?_⟩, coherent.startId, more.state _ _ coherent.start,
      fun u s' known => ?_, fun key r class_ => ?_, fun u s' known => ?_, coherent.lawful,
      fun u e known => ?_, fun u e loops known recorded => ?_, fun u none => ?_⟩, more,
      ⟨s, ?_, rfl⟩, rfl, sameEdges⟩
    · change (g.store.nodeId s).2.Holds _ (g.store.nodeId s).2.edges
      rw [sameEdges]
      exact holds'
    · rw [state] at known
      split at known
      · cases known
        exact alive
      · exact coherent.alive u s' known
    · rw [isNew] at class_
      split at class_
      · rename_i same
        cases class_
        exact ⟨same, states.length + 1, (state _).trans (if_pos rfl)⟩
      · obtain ⟨same, u, known⟩ := coherent.classes key r class_
        exact ⟨same, u, more.state u r known⟩
    · change (g.classes.insert (g.code.key s) s)[g.code.key s']? = some s'
      rw [isNew]
      rw [state] at known
      split at known
      · cases known
        exact if_pos rfl
      · have represented := coherent.represented u s' known
        rw [if_neg]
        · exact represented
        · intro same
          rw [← same, found] at represented
          cases represented
    · obtain ⟨s', shows⟩ := coherent.shows u e known
      exact ⟨s', shows.mono more⟩
    · change g.features.Transcribes (e.links loops) ((g.store.nodeId s).2.edges u)
      rw [sameEdges]
      exact coherent.recorded u e loops known recorded
    · change (g.store.nodeId s).2.edges u = []
      rw [sameEdges]
      exact coherent.unrecorded u none
    · change (g.store.nodeId s).2.state? (g.store.nodeId s).1 = some s
      rw [state, last, if_pos rfl]

/-- A state of a new class becomes the last node. -/
theorem classNode_of_fresh (coherent : g.Coherent) (fresh : g.classes[g.code.key s]? = none) :
    (g.classNode s).1 = g.store.nodeCount + 1 ∧
      (g.classNode s).2.store.state? (g.store.nodeCount + 1) = some s ∧
      (g.classNode s).2.store.nodeCount = g.store.nodeCount + 1 := by
  obtain ⟨states, holds⟩ := coherent.holds
  have unknown : g.store.idOf? s = none := by
    cases found : g.store.idOf? s with
    | none => rfl
    | some u =>
      rw [coherent.represented u s ((holds.id s u).1 found)] at fresh
      cases fresh
  obtain ⟨first, appends⟩ := GraphStore.appends_nodeId unknown holds.wide
  have grown : g.classNode s = ((g.store.nodeId s).1, { g with
      classes := g.classes.insert (g.code.key s) s, store := (g.store.nodeId s).2 }) := by
    unfold ProofGraph.classNode representative
    simp only [fresh]
  rw [grown]
  exact ⟨first, (appends.state _).trans (if_pos rfl), appends.count⟩

/-- A state that comes to stand at a node makes no other node. -/
theorem state_of_classNode (coherent : g.Coherent) (alive : s.failed = false) {v : Nat} {r : State}
    (known : (g.classNode s).2.store.state? v = some r) :
    g.store.state? v = some r ∨ (v = (g.classNode s).1 ∧ r = s) := by
  cases found : g.classes[g.code.key s]? with
  | some r' =>
    obtain ⟨u, -, unchanged⟩ := coherent.classNode_of_known found
    rw [unchanged] at known
    exact .inl known
  | none =>
    obtain ⟨coherent', more, -⟩ := coherent.classNode alive
    obtain ⟨last, isNew, count⟩ := coherent.classNode_of_fresh found
    have inside := coherent'.bounds known
    by_cases isLast : v = g.store.nodeCount + 1
    · rw [isLast, isNew] at known
      exact .inr ⟨isLast.trans last.symm, (Option.some.inj known).symm⟩
    · obtain ⟨r', known'⟩ := coherent.exists_state (u := v) ⟨inside.1, by omega⟩
      exact .inl (more.eq_of_state known' known ▸ known')

/-- Successors come to stand at nodes one after the other. -/
theorem linksTo {steps : List Outlink} (coherent : g.Coherent)
    (alive : ∀ o ∈ steps, o.child.failed = false) :
    (g.linksTo steps).2.Coherent ∧ g.Extends (g.linksTo steps).2 ∧
      List.Forall₂ (fun o l => (g.linksTo steps).2.StandsFor l.child o.child ∧ l.features = o.features)
        steps (g.linksTo steps).1 ∧
      (g.linksTo steps).2.expansions = g.expansions ∧
      (g.linksTo steps).2.store.edges = g.store.edges := by
  induction steps generalizing g with
  | nil => exact ⟨coherent, .refl g, .nil, rfl, rfl⟩
  | cons o rest ih =>
    obtain ⟨coherent₁, more₁, stands, expansions₁, edges₁⟩ := coherent.classNode (alive o (by simp))
    obtain ⟨coherent', more', stand, expansions', edges'⟩ :=
      ih coherent₁ fun o' member => alive o' (by simp [member])
    exact ⟨coherent', more₁.trans more', .cons ⟨stands.mono more', rfl⟩ stand,
      expansions'.trans expansions₁, edges'.trans edges₁⟩

/-- A new expansion shows its node, and nothing is recorded of it. -/
theorem expand (coherent : g.Coherent) (known : g.store.state? u = some s)
    (done : g.expand u s = (.ok e, g')) :
    g'.Coherent ∧ g.Extends g' ∧ g'.Shows u s e ∧ e.recorded = none ∧
      g'.expansions = g.expansions := by
  unfold ProofGraph.expand at done
  split at done
  · cases done
  rename_i steps made
  obtain ⟨coherent', more, stand, expansions, edges⟩ := coherent.linksTo (alive_of_steps made)
  simp only [coherent.alive u s known] at done
  cases done
  refine ⟨coherent', more, ⟨more.state u s known, ⟨steps, _, ?_, rfl, stand⟩, rfl⟩, rfl, expansions⟩
  rw [steps_of_extends more]
  exact made

/-- An expansion that shows its node joins those that are known. -/
theorem insert (coherent : g.Coherent) (shows : g.Shows u s e) (fresh : g.expansions[u]? = none)
    (unrecorded : e.recorded = none) :
    ({ g with expansions := g.expansions.insert u e } : ProofGraph).Coherent ∧
      g.Extends { g with expansions := g.expansions.insert u e } := by
  have more : g.Extends { g with expansions := g.expansions.insert u e } :=
    ⟨rfl, rfl, rfl, rfl, fun _ _ known => known, .refl _⟩
  have isNew : ∀ v, (g.expansions.insert u e)[v]? = if u = v then some e else g.expansions[v]? := by
    intro v
    simp only [Std.HashMap.getElem?_insert, beq_iff_eq]
  refine ⟨⟨coherent.holds, coherent.startId, coherent.start, coherent.alive, coherent.classes,
    coherent.represented, coherent.lawful, fun v e' known => ?_, fun v e' loops known recorded => ?_,
    fun v none => ?_⟩, more⟩
  · rw [isNew] at known
    split at known
    · rename_i same
      cases known
      exact ⟨s, same ▸ shows.mono more⟩
    · obtain ⟨s', shows'⟩ := coherent.shows v e' known
      exact ⟨s', shows'.mono more⟩
  · rw [isNew] at known
    split at known
    · cases known
      rw [unrecorded] at recorded
      cases recorded
    · exact coherent.recorded v e' loops known recorded
  · refine coherent.unrecorded v fun e' known => none e' ?_
    have other : u ≠ v := by
      rintro rfl
      rw [fresh] at known
      cases known
    exact (isNew v).trans ((if_neg other).trans known)

/-- New edges do not change the states. -/
theorem state?_setEdges (coherent : g.Coherent) (u : Nat) (edges : List Edge) (v : Nat) :
    (g.store.setEdges u edges).state? v = g.store.state? v := by
  obtain ⟨states, holds⟩ := coherent.holds
  exact (holds.exists_setEdges u edges).2 v

/-- The links of a known expansion are recorded. -/
theorem record (coherent : g.Coherent) (known : g.expansions[u]? = some e)
    {e' : Expansion} (done : g.record u e loops = (.ok e', g')) :
    g'.Coherent ∧ g.Extends g' ∧ g'.expansions[u]? = some e' ∧ e'.isStale loops = false ∧
      ∀ v, v ≠ u → g'.expansions[v]? = g.expansions[v]? := by
  suffices fits : g'.Coherent ∧ g.Extends g' from ⟨fits.1, fits.2, record_current known done⟩
  unfold ProofGraph.record at done
  split at done
  · split at done
    · cases done
    rename_i edges features transcribed
    cases done
    obtain ⟨lawful, more, transcribes⟩ := edgesOf_spec coherent.lawful transcribed
    obtain ⟨s, shows⟩ := coherent.shows u e known
    obtain ⟨states, holds⟩ := coherent.holds
    have holds' := holds.setEdges shows.state edges
    have sameState := coherent.state?_setEdges u edges
    -- only the edges and the expansion of this node change
    have isNew : ∀ v, (g.expansions.insert u { e with recorded := some loops })[v]? =
        if u = v then some { e with recorded := some loops } else g.expansions[v]? := by
      intro v
      simp only [Std.HashMap.getElem?_insert, beq_iff_eq]
    have extends_ : g.Extends { g with
        features
        store := g.store.setEdges u edges
        expansions := g.expansions.insert u { e with recorded := some loops } } :=
      ⟨rfl, rfl, rfl, rfl, fun v s' known' => (sameState v).trans known', more⟩
    refine ⟨⟨⟨states, ?_⟩, coherent.startId, extends_.state _ _ coherent.start,
      fun v s' known' => coherent.alive v s' ((sameState v).symm.trans known'),
      fun key r class_ => ?_, fun v s' known' =>
        coherent.represented v s' ((sameState v).symm.trans known'), lawful, fun v e' known' => ?_,
      fun v e' loops' known' recorded => ?_, fun v none => ?_⟩, extends_⟩
    · have sameEdges : (g.store.setEdges u edges).edges = Function.update g.store.edges u edges :=
        funext holds'.edgesOf
      change (g.store.setEdges u edges).Holds states (g.store.setEdges u edges).edges
      rw [sameEdges]
      exact holds'
    · obtain ⟨same, v, known'⟩ := coherent.classes key r class_
      exact ⟨same, v, (sameState v).trans known'⟩
    · rw [isNew] at known'
      split at known'
      · rename_i same
        subst same
        cases known'
        obtain ⟨known, base, loop⟩ := shows.mono extends_
        exact ⟨s, known, base, loop⟩
      · obtain ⟨s', shows'⟩ := coherent.shows v e' known'
        exact ⟨s', shows'.mono extends_⟩
    · change features.Transcribes (e'.links loops') ((g.store.setEdges u edges).edges v)
      rw [holds'.edgesOf]
      rw [isNew] at known'
      split at known'
      · rename_i same
        subst same
        cases known'
        cases recorded
        rw [Function.update_self]
        exact transcribes
      · rename_i other
        rw [Function.update_of_ne (Ne.symm other)]
        exact (coherent.recorded v e' loops' known' recorded).mono more
    · change (g.store.setEdges u edges).edges v = []
      have other : v ≠ u := by
        rintro rfl
        have never := none { e with recorded := some loops } ((isNew v).trans (if_pos rfl))
        cases never
      rw [holds'.edgesOf, Function.update_of_ne other]
      exact coherent.unrecorded v fun e' known' =>
        none e' ((isNew v).trans ((if_neg (Ne.symm other)).trans known'))
  · cases done
    exact ⟨coherent, .refl g⟩

/-- When the links of a node are given, all parts still fit, and the links are recorded. -/
theorem expanded (coherent : g.Coherent) (done : g.expanded u loops = (.ok e, g')) :
    g'.Coherent ∧ g.Extends g' ∧ g'.expansions[u]? = some e ∧ e.isStale loops = false ∧
      ∀ v, v ≠ u → g'.expansions[v]? = g.expansions[v]? := by
  suffices fits : g'.Coherent ∧ g.Extends g' from ⟨fits.1, fits.2, expanded_current done⟩
  rcases g.expanded_cases u loops with ⟨err, failed⟩ | ⟨e₀, found, asked⟩ |
    ⟨s, e₁, g₁, found, known, expand, asked⟩
  · rw [failed] at done
    cases done
  · obtain ⟨coherent', more, -⟩ := coherent.record found (asked.symm.trans done)
    exact ⟨coherent', more⟩
  · obtain ⟨coherent₁, more₁, shows, unrecorded, expansions⟩ := coherent.expand known expand
    have fresh : g₁.expansions[u]? = none := by
      rw [expansions]
      exact found
    obtain ⟨coherent₂, more₂⟩ := coherent₁.insert shows fresh unrecorded
    have inserted : (g₁.expansions.insert u e₁)[u]? = some e₁ := Std.HashMap.getElem?_insert_self
    obtain ⟨coherent', more', -⟩ := coherent₂.record inserted (asked.symm.trans done)
    exact ⟨coherent', (more₁.trans more₂).trans more'⟩

/-- A node that gives links is one of the graph. -/
theorem exists_state_of_expanded (coherent : g.Coherent) (done : g.expanded u loops = (.ok e, g')) :
    ∃ s, g.store.state? u = some s := by
  rcases g.expanded_cases u loops with ⟨err, failed⟩ | ⟨e₀, found, -⟩ | ⟨s, e₁, g₁, -, known, -⟩
  · rw [failed] at done
    cases done
  · obtain ⟨s, shows⟩ := coherent.shows u e₀ found
    exact ⟨s, shows.state⟩
  · exact ⟨s, known⟩

end Coherent

/-- To ask twice is to ask once. -/
theorem expanded_again (known : g.expansions[u]? = some e) (current : e.isStale loops = false) :
    g.expanded u loops = (.ok e, g) := by
  rw [ProofGraph.expanded, known]
  simp only [ProofGraph.record, current]
  rfl

/-! ### Giving links -/

theorem classNode_features (g : ProofGraph) (s : State) :
    (g.classNode s).2.features = g.features := by
  unfold ProofGraph.classNode representative
  simp only
  split <;> rfl

theorem linksTo_features (g : ProofGraph) (steps : List Outlink) :
    (g.linksTo steps).2.features = g.features ∧
      (g.linksTo steps).1.map (·.features) = steps.map (·.features) := by
  induction steps generalizing g with
  | nil => exact ⟨rfl, rfl⟩
  | cons o rest ih =>
    obtain ⟨features, same⟩ := ih (g.classNode o.child).2
    exact ⟨features.trans (g.classNode_features _), congrArg (o.features :: ·) same⟩

/-- The links of a node are given if its state has steps and numbers for their features are left. -/
theorem Coherent.expanded_of_room (coherent : g.Coherent) (known : g.store.state? u = some s)
    (fresh : g.expansions[u]? = none) {steps : List Outlink} (made : g.steps s = .ok steps) (names : Nat)
    (room : g.features.Room (names + (steps.map (·.features.length)).sum + 2)) :
    ∃ e g', g.expanded u true = (.ok e, g') ∧ g'.features.Room names ∧
      e.base = (g.linksTo steps).1 ++ [{ child := g.startId, features := .single restartFeature 1 }] ∧
      e.loop = (if s.completed then
        some { child := u, features := .single (if u = g.startId then startLoopFeature else loopFeature) 1 }
        else none) ∧
      (∀ v, g'.store.state? v = (g.linksTo steps).2.store.state? v) ∧
      ∀ v, v ≠ u → g'.expansions[v]? = g.expansions[v]? := by
  have startId : (g.linksTo steps).2.startId = g.startId := (g.linksTo_expansions steps).2
  set e : Expansion :=
    { base := (g.linksTo steps).1 ++ [{ child := g.startId, features := .single restartFeature 1 }]
      loop := if s.completed then
        some { child := u, features := .single (if u = g.startId then startLoopFeature else loopFeature) 1 }
        else none
      recorded := none } with isExpansion
  have expands : g.expand u s = (.ok e, (g.linksTo steps).2) := by
    unfold ProofGraph.expand
    rw [made, isExpansion, ← startId]
    simp only [coherent.alive u s known]
    rfl
  obtain ⟨coherent₁, more₁, shows, unrecorded, expansions⟩ := coherent.expand known expands
  obtain ⟨coherent₂, -⟩ := coherent₁.insert shows (by rw [expansions]; exact fresh) unrecorded
  -- the features on the links are those of the steps, one for the restart and one for the loop
  have count : featureCount (e.links true) ≤ (steps.map (·.features.length)).sum + 2 := by
    have lengths := congrArg (List.map List.length) (g.linksTo_features steps).2
    rw [List.map_map, List.map_map] at lengths
    have same : featureCount (g.linksTo steps).1 = (steps.map (·.features.length)).sum :=
      congrArg List.sum lengths
    rw [← same, isExpansion]
    unfold featureCount Expansion.links
    cases s.completed <;> simp [FeatureMap.single]
    omega
  obtain ⟨edges, t', recorded, room'⟩ := edgesOf_of_room (room.mono (Nat.add_le_add_left count names) :
    g.features.Room (names + featureCount (e.links true)))
  set g₁ : ProofGraph := { (g.linksTo steps).2 with
    expansions := (g.linksTo steps).2.expansions.insert u e } with isG₁
  have records : g₁.record u e true = (.ok { e with recorded := some true }, { g₁ with
      features := t'
      store := g₁.store.setEdges u edges
      expansions := g₁.expansions.insert u { e with recorded := some true } }) := by
    unfold ProofGraph.record
    have stale : e.isStale true = true := rfl
    have features : g₁.features = g.features := (g.linksTo_features steps).1
    rw [if_pos stale, features, recorded]
  have done : g.expanded u true = g₁.record u e true := by
    unfold ProofGraph.expanded
    simp only [fresh, known, expands]
    rfl
  obtain ⟨-, -, -, -, others⟩ := coherent.expanded (done.trans records)
  exact ⟨_, _, done.trans records, room', rfl, rfl, coherent₂.state?_setEdges u edges, others⟩

/-- A new graph is coherent. -/
theorem coherent_new {kind : GraphKind} {labelled : LabelledExample} {program : Program}
    {relations : List Relation} {features : FeatureTable} (lawful : features.Lawful)
    (made : ProofGraph.new kind labelled program relations features = .ok g) :
    g.Coherent ∧ g.labelled = labelled ∧ (∀ u : Nat, g.expansions[u]? = none) ∧
      g.features = features ∧ g.store.nodeCount = 1 := by
  unfold ProofGraph.new at made
  split at made
  · cases made
  rename_i start m started
  obtain ⟨edges, holds, none⟩ : ∃ edges, (emptyStore kind).Holds [] edges ∧ ∀ u, edges u = [] := by
    cases kind
    · exact ⟨_, GraphStore.holds_sparse_empty, fun _ => rfl⟩
    · exact ⟨_, GraphStore.holds_dense_empty, fun _ => rfl⟩
  obtain ⟨first, holds'⟩ := holds.nodeId_of_not_mem (s := start) List.not_mem_nil
  rcases placed : (emptyStore kind).nodeId start with ⟨startId, store⟩
  rw [placed] at made first holds'
  cases made
  have sameEdges : store.edges = edges := funext holds'.edgesOf
  have state : ∀ u, store.state? u = if u = 1 then some start else Option.none := by
    intro u
    rw [holds'.state]
    rcases u with _ | _ | u
    · rfl
    · rfl
    · rfl
  have isNew : ∀ key, ((∅ : Std.HashMap Key State).insert (m.code.key start) start)[key]? =
      if m.code.key start = key then some start else Option.none := by
    intro key
    simp only [Std.HashMap.getElem?_insert, beq_iff_eq, Std.HashMap.getElem?_empty]
  -- nothing has been expanded, and the start state is the only node
  have unexpanded : ∀ u, (∅ : Std.HashMap Nat Expansion)[u]? = Option.none := fun u =>
    Std.HashMap.getElem?_empty
  refine ⟨⟨⟨[start], sameEdges ▸ holds'⟩, first, (state 1).trans (if_pos rfl), fun u s known => ?_,
    fun key r class_ => ?_, fun u s known => ?_, lawful, fun u e known => ?_,
    fun u e loops known => ?_, fun u _ => ?_⟩, rfl, unexpanded, rfl, holds'.count⟩
  · rw [state] at known
    split at known
    · cases known
      exact Machine.alive_of_startQuery started
    · cases known
  · rw [isNew] at class_
    split at class_
    · rename_i same
      cases class_
      exact ⟨same, 1, (state 1).trans (if_pos rfl)⟩
    · cases class_
  · rw [state] at known
    split at known
    · cases known
      exact (isNew _).trans (if_pos rfl)
    · cases known
  · rw [unexpanded] at known
    cases known
  · rw [unexpanded] at known
    cases known
  · exact (holds'.edgesOf u).trans (none u)

/-! ### The graph of a fact -/

/-- A single fact with a feature. -/
def factRules : List Rule := [⟨⟨"p", [.constant "a"]⟩, [], [⟨⟨"go", []⟩, .unit, []⟩]⟩]

/-- The question whether it holds, which is known to be right. -/
def askFact : LabelledExample :=
  { query := ⟨⟨"p", [.constant "a"]⟩, []⟩, pos := [⟨⟨"p", [.constant "a"]⟩, []⟩], neg := [] }

/-- The fact compiled. -/
def factProgram : Program := ((compileRules factRules).toOption).getD .empty

theorem compileRules_factRules : compileRules factRules = .ok factProgram := by
  have compiles : (compileRules factRules).toOption.isSome = true := by decide +kernel
  rcases compiled : compileRules factRules with e | program
  · rw [compiled] at compiles
    cases compiles
  · rw [factProgram, compiled]
    rfl

/-- The machine that has been asked. -/
def askedFact : Except Error State × Machine := (Machine.new factProgram []).startQuery askFact.query

/-- The start state of the question. -/
def factStart : State := (askedFact.1.toOption).getD .initial

/-- The steps of the start state. -/
def factSteps : List Outlink := ((askedFact.2.code.outlinks factStart .initial).1.toOption).getD []

/-- The state in which the question has been answered. -/
def factEnd : State := (factSteps.head?.map (·.child)).getD .initial

theorem factSteps_eq : factSteps = [{ child := factEnd, features := [("go", 1)] }] := by
  have count : factSteps.map (·.features) = [[("go", 1)]] := by decide +kernel
  rcases steps : factSteps with _ | ⟨o, _ | ⟨o', rest⟩⟩
  · rw [steps] at count
    cases count
  · rw [steps] at count
    have features : o.features = [("go", 1)] := List.head_eq_of_cons_eq count
    rw [factEnd, steps, ← features]
    rfl
  · rw [steps] at count
    simp at count

/-- The graph of the question before anything is asked of it. -/
theorem exists_factGraph (kind : GraphKind) (features : FeatureTable) :
    ∃ g, ProofGraph.new kind askFact factProgram [] features = .ok g ∧ g.code = askedFact.2.code ∧
      g.start = factStart := by
  obtain ⟨start, m, started, -⟩ :=
    Machine.startQuery_represents (Machine.new factProgram []) askFact.query
  have isStart : factStart = start := by
    rw [factStart, askedFact, started]
    rfl
  have isCode : askedFact.2.code = m.code := by rw [askedFact, started]
  unfold ProofGraph.new
  rw [started, isStart, isCode]
  exact ⟨_, rfl, rfl, rfl⟩

/-- The question leads to its answer. -/
theorem outlinks_factStart (isCode : g.code = askedFact.2.code) :
    (g.code.outlinks factStart .initial).1 = .ok [{ child := factEnd, features := [("go", 1)] }] := by
  have found := factSteps_eq
  unfold factSteps at found
  rw [isCode]
  rcases linked : (askedFact.2.code.outlinks factStart .initial).1 with e | links
  · rw [linked] at found
    cases found
  · rw [linked] at found
    exact congrArg Except.ok found

theorem steps_factStart (isCode : g.code = askedFact.2.code) :
    g.steps factStart = .ok [{ child := factEnd, features := [("go", 1)] }] := by
  have goesOn : (factStart.completed || factStart.failed) = false := by decide +kernel
  rw [steps, if_neg (by rw [goesOn]; exact Bool.false_ne_true)]
  exact outlinks_factStart isCode

/-- The answer is of another class than the question. -/
theorem Coherent.classes_factEnd (coherent : g.Coherent) (isCode : g.code = askedFact.2.code)
    (isStart : g.start = factStart) (count : g.store.nodeCount = 1) :
    g.classes[g.code.key factEnd]? = none := by
  cases found : g.classes[g.code.key factEnd]? with
  | none => rfl
  | some r =>
    obtain ⟨same, u, known⟩ := coherent.classes _ r found
    rw [(coherent.eq_start count known).2, isStart] at same
    have other : askedFact.2.code.key factStart ≠ askedFact.2.code.key factEnd := by decide +kernel
    rw [isCode] at same
    exact absurd same other

/-- The graph of the question before it is asked for links, with the question expanded, and with the
answer expanded as well. -/
structure FactGraphs (g g₁ g₂ : ProofGraph) (e₁ e₂ : Expansion) : Prop where
  startId : g.startId = 1
  count : g.store.nodeCount = 1
  count₁ : g₁.store.nodeCount = 2
  count₂ : g₂.store.nodeCount = 2
  unexpanded : ∀ u : Nat, g.expansions[u]? = none
  first : g.expanded 1 true = (.ok e₁, g₁)
  second : g₁.expanded 2 true = (.ok e₂, g₂)
  links₁ : e₁.links true = [⟨2, [("go", 1)]⟩, ⟨1, .single restartFeature 1⟩]
  links₂ : e₂.links true = [⟨2, .single loopFeature 1⟩, ⟨1, .single restartFeature 1⟩]
  expansions₁ : ∀ u : Nat, g₁.expansions[u]? = if u = 1 then some e₁ else none
  expansions₂ : ∀ u : Nat, g₂.expansions[u]? =
    if u = 1 then some e₁ else if u = 2 then some e₂ else none
  current₁ : e₁.isStale true = false
  current₂ : e₂.isStale true = false
  coherent : g₂.Coherent
  more : g.Extends g₂
  isEnd : g₂.store.state? 2 = some factEnd

/-- The question and its answer have links as long as numbers last. -/
theorem exists_factGraphs {kind : GraphKind} {features : FeatureTable} (lawful : features.Lawful)
    (room : features.Room 5)
    (made : ProofGraph.new kind askFact factProgram [] features = .ok g)
    (isCode : g.code = askedFact.2.code) (isStart : g.start = factStart) :
    ∃ g₁ g₂ e₁ e₂, FactGraphs g g₁ g₂ e₁ e₂ := by
  obtain ⟨coherent, -, none, rfl, count⟩ := coherent_new lawful made
  have steps := steps_factStart isCode
  have start := coherent.start
  rw [isStart] at start
  have fresh := coherent.classes_factEnd isCode isStart count
  obtain ⟨second, isEnd, grown⟩ := coherent.classNode_of_fresh fresh
  rw [count] at second isEnd grown
  obtain ⟨e₁, g₁, done₁, room₁, base₁, loop₁, state₁, others₁⟩ :=
    coherent.expanded_of_room start (none 1) steps 2 room
  obtain ⟨coherent₁, more₁, known₁, current₁, -⟩ := coherent.expanded done₁
  have links₁ : e₁.links true = [⟨2, [("go", 1)]⟩, ⟨1, .single restartFeature 1⟩] := by
    have goesOn : factStart.completed = false := by decide +kernel
    unfold Expansion.links
    rw [base₁, loop₁, goesOn, coherent.startId]
    change [] ++ ([(⟨(g.classNode factEnd).1, [("go", 1)]⟩ : Link)] ++ _) = _
    rw [second]
    rfl
  have isEnd₁ : g₁.store.state? 2 = some factEnd := (state₁ 2).trans isEnd
  have ended : factEnd.completed = true := by decide +kernel
  have steps₁ : g₁.steps factEnd = .ok [] := by
    rw [ProofGraph.steps, ended]
    rfl
  obtain ⟨e₂, g₂, done₂, -, base₂, loop₂, state₂, others₂⟩ :=
    coherent₁.expanded_of_room isEnd₁ ((others₁ 2 (by decide)).trans (none 2)) steps₁ 0 room₁
  obtain ⟨coherent₂, more₂, known₂, current₂, -⟩ := coherent₁.expanded done₂
  have links₂ : e₂.links true = [⟨2, .single loopFeature 1⟩, ⟨1, .single restartFeature 1⟩] := by
    unfold Expansion.links
    rw [base₂, loop₂, ended, coherent₁.startId]
    rfl
  have expansions₁ (u : Nat) : g₁.expansions[u]? = if u = 1 then some e₁ else Option.none := by
    by_cases isFirst : u = 1
    · rw [isFirst, known₁, if_pos rfl]
    · rw [others₁ u isFirst, none, if_neg isFirst]
  have linked : (g.linksTo [{ child := factEnd, features := [("go", 1)] }]).2.Coherent := by
    refine (coherent.linksTo fun o member => ?_).1
    rw [List.mem_singleton.1 member]
    exact Bool.eq_false_of_not_eq_true (by decide +kernel)
  have count₁ : g₁.store.nodeCount = 2 := (linked.nodeCount_eq coherent₁ state₁).trans grown
  have count₂ : g₂.store.nodeCount = 2 := (coherent₁.nodeCount_eq coherent₂ state₂).trans count₁
  refine ⟨g₁, g₂, e₁, e₂, coherent.startId, count, count₁, count₂, none, done₁, done₂, links₁, links₂,
    expansions₁, fun u => ?_, current₁, current₂, coherent₂, more₁.trans more₂, more₂.state 2 _ isEnd₁⟩
  by_cases isSecond : u = 2
  · rw [isSecond, known₂]
    rfl
  · rw [others₂ u isSecond, expansions₁, if_neg isSecond]

namespace FactGraphs

variable {g₁ g₂ : ProofGraph} {e₁ e₂ : Expansion}

theorem startId₁ (graphs : FactGraphs g g₁ g₂ e₁ e₂) : g₁.startId = 1 := by
  have grows := (g.expanded_known 1 true).1
  rw [graphs.first] at grows
  exact grows.start.trans graphs.startId

theorem startId₂ (graphs : FactGraphs g g₁ g₂ e₁ e₂) : g₂.startId = 1 :=
  graphs.more.startId.trans graphs.startId

theorem again₁ (graphs : FactGraphs g g₁ g₂ e₁ e₂) : g₁.expanded 1 true = (.ok e₁, g₁) :=
  expanded_again (graphs.expansions₁ 1) graphs.current₁

theorem again₂ (graphs : FactGraphs g g₁ g₂ e₁ e₂) : g₂.expanded 1 true = (.ok e₁, g₂) :=
  expanded_again (graphs.expansions₂ 1) graphs.current₁

theorem againEnd (graphs : FactGraphs g g₁ g₂ e₁ e₂) : g₂.expanded 2 true = (.ok e₂, g₂) :=
  expanded_again (graphs.expansions₂ 2) graphs.current₂

/-- A node that one of the graphs has shown is expanded in one of the graphs. -/
theorem expanded_of_met (graphs : FactGraphs g g₁ g₂ e₁ e₂) (isGraph : g' = g ∨ g' = g₁ ∨ g' = g₂)
    (met : Met g' u) :
    ∃ e g'', g'.expanded u true = (.ok e, g'') ∧ (g'' = g ∨ g'' = g₁ ∨ g'' = g₂) := by
  -- what the three graphs show
  have shown : (g' = g ∧ u = 1) ∨ (g' = g₁ ∧ (u = 1 ∨ u = 2)) ∨ (g' = g₂ ∧ (u = 1 ∨ u = 2)) := by
    have children : ∀ e : Expansion, e = e₁ ∨ e = e₂ → ∀ l ∈ e.links true, l.child = 1 ∨ l.child = 2 := by
      intro e isExpansion l member
      rcases isExpansion with rfl | rfl
      · rw [graphs.links₁] at member
        rcases List.mem_cons.1 member with rfl | member
        · exact .inr rfl
        · rw [List.mem_singleton.1 member]
          exact .inl rfl
      · rw [graphs.links₂] at member
        rcases List.mem_cons.1 member with rfl | member
        · exact .inr rfl
        · rw [List.mem_singleton.1 member]
          exact .inl rfl
    cases met with
    | start =>
      rcases isGraph with rfl | rfl | rfl
      · exact .inl ⟨rfl, graphs.startId⟩
      · exact .inr (.inl ⟨rfl, .inl graphs.startId₁⟩)
      · exact .inr (.inr ⟨rfl, .inl graphs.startId₂⟩)
    | child known member =>
      obtain ⟨e, isKnown, rfl⟩ := Option.map_eq_some_iff.1 known
      rcases isGraph with rfl | rfl | rfl
      · rw [graphs.unexpanded] at isKnown
        cases isKnown
      · rw [graphs.expansions₁] at isKnown
        split at isKnown
        · cases isKnown
          exact .inr (.inl ⟨rfl, children _ (.inl rfl) _ member⟩)
        · cases isKnown
      · rw [graphs.expansions₂] at isKnown
        split at isKnown
        · cases isKnown
          exact .inr (.inr ⟨rfl, children _ (.inl rfl) _ member⟩)
        · split at isKnown
          · cases isKnown
            exact .inr (.inr ⟨rfl, children _ (.inr rfl) _ member⟩)
          · cases isKnown
  rcases shown with ⟨rfl, rfl⟩ | ⟨rfl, rfl | rfl⟩ | ⟨rfl, rfl | rfl⟩
  · exact ⟨e₁, g₁, graphs.first, .inr (.inl rfl)⟩
  · exact ⟨e₁, _, graphs.again₁, .inr (.inl rfl)⟩
  · exact ⟨e₂, g₂, graphs.second, .inr (.inr rfl)⟩
  · exact ⟨e₁, _, graphs.again₂, .inr (.inr rfl)⟩
  · exact ⟨e₂, _, graphs.againEnd, .inr (.inr rfl)⟩

/-- Whatever is asked for, the graph is one of the three. -/
theorem eq_of_asked (graphs : FactGraphs g g₁ g₂ e₁ e₂) (asked : Asked g g') :
    g' = g ∨ g' = g₁ ∨ g' = g₂ := by
  induction asked with
  | none => exact .inl rfl
  | links _ met ih =>
    obtain ⟨e, g'', done, isGraph⟩ := graphs.expanded_of_met ih met
    rwa [show (Walkable.links _ _ true).2 = g'' from congrArg Prod.snd done]
  | degree _ met ih =>
    obtain ⟨e, g'', done, isGraph⟩ := graphs.expanded_of_met ih met
    rwa [show (Walkable.degree _ _ true).2 = g'' from congrArg Prod.snd done]

/-- All nodes have links. -/
theorem expands (graphs : FactGraphs g g₁ g₂ e₁ e₂) : Expands g := by
  intro g' asked u met
  obtain ⟨e, g'', done, -⟩ := graphs.expanded_of_met (graphs.eq_of_asked asked) met
  refine ⟨⟨e.links true, ?_⟩, e.degree true, ?_⟩
  · change (g'.expanded u true).1.map _ = _
    rw [done]
    rfl
  · change (g'.expanded u true).1.map _ = _
    rw [done]
    rfl

end FactGraphs

end ProofGraph

end ProofWalk
