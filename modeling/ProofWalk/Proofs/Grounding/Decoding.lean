import ProofWalk.Proofs.Exact
import ProofWalk.Proofs.Grounding.Forms
import ProofWalk.Proofs.Learning.Decoding
import ProofWalk.Proofs.Learning.Sources
import ProofWalk.Proofs.Logic.Characters
import ProofWalk.Proofs.Prover.Granted

/-!
# What a grounded line says

A walk that ends leaves a sound graph behind. Its grounded line can be read, and the graph that is read
has the nodes of the proof graph. The links of each node are those that the proof graph has given, with
the same weights, and a node that has not been asked for its links has none.

## Main definitions

* `GroundedExample.Sound` — what has been grounded of an example that has been read
* `Grounder.groundBy` — grounding with a walk of one's own
* `TrainingExample.Mirrors` — a graph that has been read is the one that was grounded

## Main results

* `Grounder.sound_groundBy` — grounding gives sound results
* `GroundedExample.Sound.mirrors` — their lines say what was grounded
-/

namespace ProofWalk

/-! ### Grounding -/

/-- The graph is sound, the nodes of labels are its nodes, and the query stands on one field. -/
structure GroundedExample.Sound (x : GroundedExample) : Prop where
  graph : x.graph.Sound
  query : '\t' ∉ x.labelled.query.text.toList
  labels : ∀ u ∈ x.pos ++ x.neg, (x.graph.store.state? u).isSome

namespace Grounder

/-- The nodes of labels are nodes. -/
theorem isSome_of_mem_labelNodes {g : ProofGraph} {nodes : List Nat} {labels : List String} {u : Nat}
    (member : u ∈ labelNodes g nodes labels) : (g.store.state? u).isSome := by
  have holds := (List.mem_filter.1 member).2
  split at holds
  · rename_i s known
    rw [known]
    rfl
  · cases holds

section

variable {K : Type} (r : Grounder)

/-- Grounding with a walk in the place of a prover, on a new graph of a kind. Gives the scores as well. -/
def groundBy (kind : GraphKind) (walk : Walk ProofGraph (Scores K)) (features : FeatureTable)
    (e : LabelledExample) : Except Error (GroundedExample × Scores K) × FeatureTable :=
  match e.checkLabels with
  | .error err => (.error err, features)
  | .ok () =>
    match ProofGraph.new kind e r.program r.relations features with
    | .error err => (.error err, features)
    | .ok g =>
      match walk (Prover.session g) with
      | (.error err, s) => (.error err, s.graph.features)
      | (.ok scores, s) =>
        let nodes := scores.toList.map (·.1)
        (.ok
          ({ graph := s.graph
             pos := labelNodes s.graph nodes (e.pos.map (·.text))
             neg := labelNodes s.graph nodes (e.neg.map (·.text)) }, scores), s.graph.features)

/-- To ground with a prover is to ground with its walk. -/
theorem ground_eq [Scalar K] (p : Prover K) (features : FeatureTable) (e : LabelledExample) :
    r.ground p features e = ((r.groundBy p.kind.graphKind p.prove features e).1.map (·.1),
      (r.groundBy p.kind.graphKind p.prove features e).2) := by
  unfold ground groundBy Prover.makeGraph
  cases e.checkLabels with
  | error err => rfl
  | ok _ =>
    cases ProofGraph.new p.kind.graphKind e r.program r.relations features with
    | error err => rfl
    | ok g =>
      have proved : p.proveOn g =
          ((p.prove (Prover.session g)).1, (p.prove (Prover.session g)).2.graph) := rfl
      simp only [proved]
      rcases p.prove (Prover.session g) with ⟨_ | scores, s⟩ <;> rfl

variable {r}

/-- What has been grounded is what the walk has made of a new graph. -/
theorem groundBy_eq_ok {kind : GraphKind} {walk : Walk ProofGraph (Scores K)}
    {features features' : FeatureTable} {e : LabelledExample} {x : GroundedExample} {scores : Scores K}
    (done : r.groundBy kind walk features e = (.ok (x, scores), features')) :
    ∃ g s, ProofGraph.new kind e r.program r.relations features = .ok g ∧
      walk (Prover.session g) = (.ok scores, s) ∧ x.graph = s.graph ∧ features' = x.graph.features ∧
      ∀ u ∈ x.pos ++ x.neg, (x.graph.store.state? u).isSome := by
  unfold groundBy at done
  split at done
  · cases done
  split at done
  · cases done
  rename_i g made
  split at done
  · cases done
  rename_i scores' s walked
  cases done
  refine ⟨g, s, made, walked, rfl, rfl, fun u member => ?_⟩
  rcases List.mem_append.1 member with pos | neg
  · exact isSome_of_mem_labelNodes pos
  · exact isSome_of_mem_labelNodes neg

/-- A walk that only asks for links grounds soundly. -/
theorem sound_groundBy {kind : GraphKind} {walk : Walk ProofGraph (Scores K)} (keeps : walk.Keeps)
    {features features' : FeatureTable} {text : String} {line : Nat} {e : LabelledExample}
    {x : GroundedExample} {scores : Scores K} (lawful : features.Lawful)
    (read : LabelledExample.parse? text line = .ok e)
    (done : r.groundBy kind walk features e = (.ok (x, scores), features')) : x.Sound := by
  obtain ⟨g, s, made, walked, isGraph, -, labels⟩ := groundBy_eq_ok done
  obtain ⟨sound, labelled, -⟩ := ProofGraph.sound_new lawful made
  obtain ⟨sound', more⟩ := sound.granted (keeps _ _ _ walked)
  rw [← isGraph] at sound' more
  refine ⟨sound', ?_, labels⟩
  have same : x.labelled = e := more.labelled.trans labelled
  rw [same]
  exact LabelledExample.query_of_parse? read

end

end Grounder

/-! ### Edges -/

/-- The edges of a node among all edges of a store. -/
theorem GraphStore.filter_sourcedEdges (g : GraphStore) {u : Nat} (node : u ∈ g.nodes) :
    g.sourcedEdges.filter (fun e => e.1 == u) = (g.edges u).map fun e => (u, e) := by
  have distinct : g.nodes.Nodup := (List.nodup_range).map (fun a b same => Nat.succ.inj same)
  obtain ⟨before, behind, split⟩ := List.append_of_mem node
  have others {us : List Nat} (apart : u ∉ us) :
      (us.flatMap fun v => (g.edges v).map fun e => (v, e)).filter (fun e => e.1 == u) = [] := by
    rw [List.filter_eq_nil_iff]
    intro e member here
    obtain ⟨v, isNode, isEdge⟩ := List.mem_flatMap.1 member
    obtain ⟨edge, -, rfl⟩ := List.mem_map.1 isEdge
    exact apart (eq_of_beq here ▸ isNode)
  rw [split, List.nodup_append] at distinct
  obtain ⟨-, last, crossed⟩ := distinct
  rw [sourcedEdges, split, List.flatMap_append, List.flatMap_cons, List.filter_append, List.filter_append,
    others fun member => crossed u member u (List.mem_cons_self ..) rfl,
    others (List.nodup_cons.1 last).1, List.nil_append, List.append_nil, List.filter_eq_self]
  intro e member
  obtain ⟨edge, -, rfl⟩ := List.mem_map.1 member
  exact beq_self_eq_true u

namespace ProofGraph

variable {g : ProofGraph}

/-- The edges of a sound graph are the links that it has given. -/
theorem Sound.edges (sound : g.Sound) (u : Nat) :
    g.features.Transcribes ((KnowsLinks.known g u).getD []) (g.store.edges u) := by
  change g.features.Transcribes (((g.expansions[u]?).map (·.links true)).getD []) _
  cases known : g.expansions[u]? with
  | none =>
    rw [sound.coherent.unrecorded u fun e known' => by rw [known] at known'; cases known']
    exact .nil
  | some e =>
    have current := sound.current u e known
    cases recorded : e.recorded with
    | none =>
      rw [Expansion.isStale, recorded] at current
      cases current
    | some withLoop =>
      -- either the loop has been recorded or there is none
      have same : e.links true = e.links withLoop := by
        rw [Expansion.isStale, recorded] at current
        cases withLoop with
        | true => rfl
        | false =>
          have none : e.loop = none := by simpa using current
          rw [Expansion.links, Expansion.links, none]
          rfl
      rw [Option.map_some, Option.getD_some, same]
      exact sound.coherent.recorded u e withLoop known recorded

end ProofGraph

/-- The edges of a store are counted. -/
theorem GraphStore.Holds.length_sourcedEdges {g : GraphStore} {states : List State}
    {edges : Nat → List Edge} (holds : g.Holds states edges) :
    g.edgeCount = g.sourcedEdges.length := by
  have counted (n : Nat) : ∑ u ∈ Finset.Icc 1 n, (edges u).length =
      (((List.range n).map (· + 1)).map fun u => (g.edges u).length).sum := by
    induction n with
    | zero => rfl
    | succ n ih =>
      rw [Finset.sum_Icc_succ_top (Nat.le_add_left 1 n), ih, List.range_succ, List.map_append,
        List.map_append, List.sum_append, ← holds.edgesOf]
      rfl
  rw [holds.edgeCount, counted, ← holds.count, sourcedEdges, List.length_flatMap, nodes]
  exact congrArg List.sum (List.map_congr_left fun u _ => (List.length_map _).symm)

/-- An edge of a node records a link to a node. -/
theorem ProofGraph.Coherent.exists_link {g : ProofGraph} (coherent : g.Coherent) {u : Nat} {edge : Edge}
    (member : edge ∈ g.store.edges u) :
    ∃ l : Link, (g.store.state? l.child).isSome ∧ edge.target = l.child ∧
      g.features.Names l.features edge.labels := by
  have recorded : ∃ e loops, g.expansions[u]? = some e ∧ e.recorded = some loops := by
    by_contra never
    rw [coherent.unrecorded u] at member
    · cases member
    · intro e known
      cases isRecorded : e.recorded with
      | none => rfl
      | some loops => exact absurd ⟨e, loops, known, isRecorded⟩ never
  obtain ⟨e, loops, known, isRecorded⟩ := recorded
  obtain ⟨l, isLink, target, names⟩ :=
    exists_of_forall₂ (coherent.recorded u e loops known isRecorded) member
  have given : KnowsLinks.known g u = some (e.links true) := by
    change (g.expansions[u]?).map (·.links true) = _
    rw [known]
    rfl
  -- the loop is among the links that can be given
  have isGiven : l ∈ e.links true := by
    rcases List.mem_append.1 isLink with loop | base
    · split at loop
      · exact List.mem_append_left _ loop
      · cases loop
    · exact List.mem_append_right _ base
  exact ⟨l, coherent.isSome_child given isGiven, target, names⟩

/-- An edge leads to a node, and its features have names. -/
theorem ProofGraph.Coherent.edge {g : ProofGraph} (coherent : g.Coherent) {u : Nat} {edge : Edge}
    (member : edge ∈ g.store.edges u) :
    (1 ≤ edge.target ∧ edge.target ≤ g.store.nodeCount) ∧
      ∀ label ∈ edge.labels, ∃ name, g.features.number? name = some label.1 := by
  obtain ⟨l, isNode, target, names⟩ := coherent.exists_link member
  refine ⟨?_, fun label isLabel => ?_⟩
  · rw [target]
    exact coherent.isSome_state.1 isNode
  · obtain ⟨feature, -, number, -⟩ := exists_of_forall₂ names isLabel
    exact ⟨feature.1, number⟩

/-- An example whose parts fit together can be written and read back with every table that keeps the
numbers of its features. -/
theorem ProofGraph.Coherent.writable {x : GroundedExample} (coherent : x.graph.Coherent)
    (query : '\t' ∉ x.labelled.query.text.toList)
    (labels : ∀ u ∈ x.pos ++ x.neg, (x.graph.store.state? u).isSome) {table : FeatureTable}
    (lawful : table.Lawful) (more : x.graph.features.Extends table) : x.Writable table := by
  obtain ⟨states, holds⟩ := coherent.holds
  refine ⟨query, fun u member => coherent.isSome_state.1 (labels u member), holds.length_sourcedEdges,
    fun e member => ?_⟩
  obtain ⟨target, numbered⟩ := coherent.edge (GraphStore.mem_sourcedEdges.1 member).2
  refine ⟨target, fun label isLabel => ?_⟩
  obtain ⟨name, number⟩ := numbered label isLabel
  have named := (lawful.inverse _ _).1 (more _ _ number)
  obtain ⟨positive, below⟩ := lawful.positive _ _ named
  exact FeatureTable.finds (by rw [named]; rfl) positive below

/-- A sound example can be written and read back with the table of the run. -/
theorem GroundedExample.Sound.writable {x : GroundedExample} (sound : x.Sound) {table : FeatureTable}
    (interned : x.graph.features.Interned table) : x.Writable table := by
  obtain ⟨lawful, more⟩ := interned.spec sound.graph.coherent.lawful
  exact sound.graph.coherent.writable sound.query sound.labels lawful more

/-- The edges of a node have been read as they were written, in their order. -/
theorem GraphStore.forall₂_filter {g : GraphStore} {t : FeatureTable} {l : LocalFeatures}
    {edges : List (Nat × LearningEdge)} {u : Nat} (node : u ∈ g.nodes)
    (decodes : List.Forall₂ (fun e e' => e'.1 = e.1 ∧ l.Decodes t e.2 e'.2) g.sourcedEdges edges) :
    List.Forall₂ (fun e e' => l.Decodes t e e'.2) (g.edges u) (edges.filter fun e => e.1 == u) := by
  have sources : List.Forall₂ (fun e e' => e'.1 = e.1 ∧ l.Decodes t e.2 e'.2)
      (g.sourcedEdges.filter fun e => e.1 == u) (edges.filter fun e => e.1 == u) :=
    List.rel_filter (fun e e' related => iff_of_eq (congrArg (fun v => (v == u) = true) related.1.symm))
      decodes
  rw [g.filter_sourcedEdges node, List.forall₂_map_left_iff] at sources
  exact sources.imp fun _ _ related => related.2

/-! ### Reading -/

/-- A graph that has been read has the nodes of a proof graph, with the links that it has given and their
weights, and walks start at its first node. -/
structure TrainingExample.Mirrors (te : TrainingExample) (g : ProofGraph) : Prop where
  wellFormed : te.graph.WellFormed
  seed : te.seed = [(1, 1)]
  nodeCount : te.graph.nodeCount = g.store.nodeCount
  links : ∀ (weighter : Weighter ℝ), ∀ u ∈ te.graph.nodes,
    te.graph.linksOf weighter.squash weighter.parameters u = (outOf weighter.weighting g u).getD []

/-- A link has the weight of the edge that it has been written and read as. -/
theorem Weighter.weight_of_decodes (weighter : Weighter ℝ) {t table : FeatureTable}
    (lawful : table.Lawful) (more : t.Extends table) {l : LocalFeatures} {link : Link} {edge : Edge}
    {edge' : LearningEdge} (transcribed : edge.target = link.child ∧ t.Names link.features edge.labels)
    (decodes : l.Decodes table edge edge') :
    (link.child, weighter.weighting.weight link.features) = (edge'.target,
      (Transitions.weigh weighter.squash
        (l.names.map fun name => weighter.parameters.getD name weighter.squash.default)
        edge'.labels).weight) := by
  have terms : link.features.map (fun feature =>
        weighter.featureWeight feature.1 * Scalar.ofFloat feature.2) =
      edge'.labels.map fun label =>
        (((l.names.map fun name => weighter.parameters.getD name weighter.squash.default)[label.1]?).getD
          0) * Scalar.ofFloat label.2 := by
    refine map_eq_map_of_forall₂ (fun feature label label' written read => ?_) transcribed.2 decodes.2
    obtain ⟨number, weight⟩ := written
    obtain ⟨⟨name, named, met⟩, weight'⟩ := read
    rw [(lawful.inverse _ _).1 (more _ _ number)] at named
    cases named
    rw [Array.getElem?_map, met, weight', weight]
    rfl
  have score : weighter.score link.features = Scalar.sum (edge'.labels.map fun label =>
        (((l.names.map fun name => weighter.parameters.getD name weighter.squash.default)[label.1]?).getD
          0) * Scalar.ofFloat label.2) := by
    rw [← terms, Scalar.sum, List.foldl_map]
    rfl
  refine Prod.ext (transcribed.1.symm.trans decodes.1.symm) ?_
  exact congrArg weighter.squash.apply score

/-- The grounded line of a sound example can be read if its counts fit in words, and what is read is what
was grounded. -/
theorem GroundedExample.Sound.mirrors {x : GroundedExample} (sound : x.Sound) {table : FeatureTable}
    (interned : x.graph.features.Interned table) :
    (x.graph.store.Fits → ∃ te, TrainingExample.parse? x.line (some table) = .ok te) ∧
      ∀ te, TrainingExample.parse? x.line (some table) = .ok te → te.Mirrors x.graph := by
  have writable := sound.writable interned
  obtain ⟨lawful, more⟩ := interned.spec sound.graph.coherent.lawful
  constructor
  · intro fits
    obtain ⟨edges, l, reads, -⟩ := TrainingExample.parse?_line writable fits
    exact ⟨_, reads⟩
  intro te parsed
  obtain ⟨wellFormed, seed⟩ := TrainingExample.wellFormed_of_parse? parsed
  obtain ⟨edges, l, reads, decodes⟩ :=
    TrainingExample.parse?_line writable (TrainingExample.fits_of_parse? writable parsed)
  rw [reads] at parsed
  cases parsed
  refine ⟨wellFormed, seed, rfl, fun weighter u node => ?_⟩
  obtain ⟨positive, inside⟩ : 1 ≤ u ∧ u ≤ x.graph.store.nodeCount := LearningGraph.mem_nodes.1 node
  rw [LearningGraph.linksOf_ofEdges _ _ positive inside]
  have links : (outOf weighter.weighting x.graph u).getD [] =
      Walk.weighed weighter.weighting ((KnowsLinks.known x.graph u).getD []) := by
    rw [outOf]
    cases KnowsLinks.known x.graph u <;> rfl
  have sources := GraphStore.forall₂_filter (GraphStore.mem_nodes.2 ⟨positive, inside⟩) decodes
  rw [links]
  refine (map_eq_map_of_forall₂ ?_ (sound.graph.edges u) sources).symm
  intro link edge edge' transcribed read
  exact weighter.weight_of_decodes lawful more transcribed read

/-! ### Small graphs -/

/-- Rectified weights where every feature counts with one. -/
noncomputable def plainWeights : Weighter ℝ := { parameters := .empty, squash := .relu }

theorem plainWeights_single (name : String) : plainWeights.weighting.weight [(name, 1)] = 1 := by
  have none : (∅ : Std.TreeMap String (Slot ℝ))[name]? = Option.none := Std.TreeMap.getElem?_emptyc
  change max ((0 : ℝ) + (((∅ : Std.TreeMap String (Slot ℝ))[name]?.map (·.weight)).getD 1) *
    Scalar.ofFloat 1) 0 = 1
  rw [none, Scalar.ofFloat_one]
  norm_num

theorem GraphStore.length_featuresOf_le {edges : List Edge} {labels : Nat}
    (few : ∀ e ∈ edges, e.labels.length ≤ labels) : (featuresOf edges).length ≤ edges.length * labels := by
  have once : ∀ all : List Nat,
      (all.foldr (fun f seen => if seen.head? = some f then seen else f :: seen) []).length ≤ all.length := by
    intro all
    induction all with
    | nil => exact le_rfl
    | cons f rest ih =>
      rw [List.foldr_cons, List.length_cons]
      split
      · exact Nat.le_succ_of_le ih
      · exact Nat.succ_le_succ ih
  refine (once _).trans ?_
  rw [List.length_mergeSort, List.length_flatMap]
  refine (List.sum_le_card_nsmul _ labels fun n member => ?_).trans (by rw [List.length_map, smul_eq_mul])
  obtain ⟨e, isEdge, rfl⟩ := List.mem_map.1 member
  rw [List.length_map]
  exact few e isEdge

/-- The counts of a graph fit in words if it is small. -/
theorem GraphStore.fits_of_few {g : GraphStore} (nodes degree labels : Nat)
    (counted : g.edgeCount = g.sourcedEdges.length) (fewNodes : g.nodeCount ≤ nodes)
    (fewEdges : ∀ u, (g.edges u).length ≤ degree)
    (fewLabels : ∀ u, ∀ e ∈ g.edges u, e.labels.length ≤ labels)
    (below : nodes < Text.wordLimit ∧ nodes * degree < Text.wordLimit ∧
      nodes * (degree * labels * degree) < Text.wordLimit) : g.Fits := by
  have sums (f : Nat → Nat) (most : Nat) (bound : ∀ u, f u ≤ most) :
      (g.nodes.map f).sum ≤ nodes * most := by
    refine (List.sum_le_card_nsmul _ most fun n member => ?_).trans ?_
    · obtain ⟨u, -, rfl⟩ := List.mem_map.1 member
      exact bound u
    · rw [List.length_map, GraphStore.nodes, List.length_map, List.length_range, smul_eq_mul]
      exact Nat.mul_le_mul_right _ fewNodes
  refine ⟨fewNodes.trans_lt below.1, ?_, ?_⟩
  · rw [counted, sourcedEdges, List.length_flatMap]
    refine (sums _ degree fun u => ?_).trans_lt below.2.1
    rw [List.length_map]
    exact fewEdges u
  · refine (sums _ (degree * labels * degree) fun u => ?_).trans_lt below.2.2
    refine Nat.mul_le_mul ((length_featuresOf_le (fewLabels u)).trans ?_) (fewEdges u)
    exact Nat.mul_le_mul_right _ (fewEdges u)

/-- What is written of a fact can be read. -/
theorem ProofGraph.FactGraphs.fits {g g₁ g₂ g' : ProofGraph} {e₁ e₂ : Expansion}
    (graphs : FactGraphs g g₁ g₂ e₁ e₂) (isGraph : g' = g ∨ g' = g₁ ∨ g' = g₂) (sound : g'.Sound) :
    g'.store.Fits := by
  obtain ⟨states, holds⟩ := sound.coherent.holds
  have nodes : g'.store.nodeCount ≤ 2 := by
    rcases isGraph with rfl | rfl | rfl
    · rw [graphs.count]
      decide
    · exact graphs.count₁.le
    · exact graphs.count₂.le
  -- a node has at most two links with one feature each
  have few (u : Nat) : ((KnowsLinks.known g' u).getD []).length ≤ 2 ∧
      ∀ l ∈ (KnowsLinks.known g' u).getD [], l.features.length ≤ 1 := by
    have links (e : Expansion) (isExpansion : e = e₁ ∨ e = e₂) :
        (e.links true).length ≤ 2 ∧ ∀ l ∈ e.links true, l.features.length ≤ 1 := by
      rcases isExpansion with rfl | rfl
      · rw [graphs.links₁]
        simp [FeatureMap.single]
      · rw [graphs.links₂]
        simp [FeatureMap.single]
    change (((g'.expansions[u]?).map (·.links true)).getD []).length ≤ 2 ∧
      ∀ l ∈ ((g'.expansions[u]?).map (·.links true)).getD [], _
    have expansion : g'.expansions[u]? = none ∨ g'.expansions[u]? = some e₁ ∨
        g'.expansions[u]? = some e₂ := by
      rcases isGraph with rfl | rfl | rfl
      · exact .inl (graphs.unexpanded u)
      · rw [graphs.expansions₁]
        split <;> simp
      · rw [graphs.expansions₂]
        split
        · simp
        · split <;> simp
    rcases expansion with none | first | second
    · rw [none]
      simp
    · rw [first]
      exact links e₁ (.inl rfl)
    · rw [second]
      exact links e₂ (.inr rfl)
  refine GraphStore.fits_of_few 2 2 1 holds.length_sourcedEdges nodes
    (fun u => ?_) (fun u e member => ?_) (by decide)
  · rw [← (sound.edges u).length_eq]
    exact (few u).1
  · obtain ⟨l, isLink, -, names⟩ := exists_of_forall₂ (sound.edges u) member
    rw [← names.length_eq]
    exact (few u).2 l isLink

end ProofWalk
