import ProofWalk.Proofs.Grounding.Decoding
import ProofWalk.Proofs.Grounding.Forms
import ProofWalk.Proofs.ProofGraph.Tidy

/-!
# The lines of a run and its table

The lines of a run refer to features by number, and the names are written only once, when all examples
have been grounded. A number once given is kept, and the names are legible, so every line can be read with
the table that has been saved and loaded again, and it tells what was grounded.

## Main definitions

* `Grounder.groundAll` — grounding examples one after the other
* `TrainingExample.Retells` — what has been read is what was grounded
* `GroundedExample.Tidy` — an example that has been grounded with a table

## Main results

* `Grounder.tidy_ground`, `Grounder.tidy_groundAll` — grounding adds legible names and nothing else
* `GroundedExample.Tidy.retells` — lines tell what was grounded
* `Grounder.lines_retell` — also with a table that has been saved and loaded
-/

namespace ProofWalk

/-! ### What edges tell -/

/-- What an edge tells: where it leads to, and its features by name with their weights. -/
def Edge.told (t : FeatureTable) (e : Edge) : Nat × List (Option String × Float) :=
  (e.target, e.labels.map fun label => (t.name? label.1, label.2))

/-- What an edge of a graph that has been read tells. -/
def LearningGraph.told (g : LearningGraph) (e : Nat) : Nat × List (Option String × Float) :=
  (g.target e, (g.labels e).map fun label => (g.features[label.1]?, label.2))

/-- What has been read is what was grounded: the query, the nodes of labels, as many nodes and edges, and
at every node the same edges in the same order. All features have names. -/
structure TrainingExample.Retells (te : TrainingExample) (x : GroundedExample) : Prop where
  query : te.query = x.labelled.query.text
  pos : te.pos = x.pos
  neg : te.neg = x.neg
  nodeCount : te.graph.nodeCount = x.graph.store.nodeCount
  edgeCount : te.graph.edgeCount = x.graph.store.edgeCount
  edges : ∀ u ∈ te.graph.nodes,
    (te.graph.edgesOf u).map te.graph.told = (x.graph.store.edges u).map (Edge.told x.graph.features)
  named : ∀ u, ∀ e ∈ x.graph.store.edges u, ∀ label ∈ e.labels,
    (x.graph.features.name? label.1).isSome

/-- An edge that has been read tells what has been written. -/
theorem LocalFeatures.Decodes.told {t : FeatureTable} {l : LocalFeatures} {edge : Edge}
    {edge' : LearningEdge} (decodes : l.Decodes t edge edge') :
    edge.told t = (edge'.target, edge'.labels.map fun label => (l.names[label.1]?, label.2)) := by
  refine Prod.ext decodes.1.symm ?_
  change edge.labels.map _ = edge'.labels.map _
  rw [← List.forall₂_eq_eq_eq, List.forall₂_map_left_iff, List.forall₂_map_right_iff]
  refine decodes.2.imp fun label label' reads => ?_
  obtain ⟨⟨name, named, met⟩, weight⟩ := reads
  rw [named, met, weight]

/-- Tables that give the features of an edge the same names make it tell the same. -/
theorem Edge.told_congr {t t' : FeatureTable} {e : Edge}
    (same : ∀ label ∈ e.labels, t.name? label.1 = t'.name? label.1) : e.told t = e.told t' :=
  congrArg (e.target, ·) (List.map_congr_left fun label member => by rw [same label member])

/-- The edges of a node tell what those of its source tell. -/
theorem LearningGraph.map_told_ofEdges {nodeCount : Nat} {edges : List (Nat × LearningEdge)}
    {features : Array String} {dependencies u : Nat} (positive : 1 ≤ u) (inside : u ≤ nodeCount) :
    ((ofEdges nodeCount edges features dependencies).edgesOf u).map
        (ofEdges nodeCount edges features dependencies).told =
      (edges.filter fun e => e.1 == u).map fun e =>
        (e.2.target, e.2.labels.map fun label => (features[label.1]?, label.2)) := by
  have found := congrArg (List.map fun edge : LearningEdge =>
    (edge.target, edge.labels.map fun label => (features[label.1]?, label.2)))
    (@map_edge_edgesOf nodeCount edges features dependencies u positive inside)
  rw [List.map_map, List.map_map] at found
  exact found

/-- Edges that have been read as those of a store tell at every node what is stored there, in the same order. -/
theorem LearningGraph.map_told_of_decodes {g : GraphStore} {t : FeatureTable} {l : LocalFeatures}
    {edges : List (Nat × LearningEdge)} {dependencies u : Nat}
    (decodes : List.Forall₂ (fun e e' => e'.1 = e.1 ∧ l.Decodes t e.2 e'.2) g.sourcedEdges edges)
    (positive : 1 ≤ u) (inside : u ≤ g.nodeCount) :
    ((ofEdges g.nodeCount edges l.names dependencies).edgesOf u).map
        (ofEdges g.nodeCount edges l.names dependencies).told = (g.edges u).map (Edge.told t) := by
  have sources := GraphStore.forall₂_filter (GraphStore.mem_nodes.2 ⟨positive, inside⟩) decodes
  rw [map_told_ofEdges positive inside, eq_comm, ← List.forall₂_eq_eq_eq, List.forall₂_map_left_iff,
    List.forall₂_map_right_iff]
  exact sources.imp fun edge edge' read => read.told

/-! ### Examples -/

/-- An example that has been grounded with a table that then lists names: its graph is tidy, the nodes of
labels are its nodes, and the query stands on one field. -/
structure GroundedExample.Tidy (x : GroundedExample) (names : List String) : Prop where
  graph : x.graph.Tidy names
  query : '\t' ∉ x.labelled.query.text.toList
  labels : ∀ u ∈ x.pos ++ x.neg, (x.graph.store.state? u).isSome

/-- With a table that lists the names of a run, the line of an example tells what was grounded. -/
theorem GroundedExample.Tidy.retells {x : GroundedExample} {names more : List String}
    (tidy : x.Tidy names) {index : FeatureTable} (lists : index.Lists (names ++ more))
    (fits : x.graph.store.Fits) :
    ∃ te, TrainingExample.parse? x.line (some index) = .ok te ∧ te.Retells x := by
  have coherent := tidy.graph.coherent
  have extends_ : x.graph.features.Extends index := tidy.graph.lists.extends_append lists
  have writable := coherent.writable tidy.query tidy.labels lists.lawful extends_
  obtain ⟨edges, l, reads, decodes⟩ := TrainingExample.parse?_line writable fits
  -- a feature on an edge has the same name in both tables
  have named : ∀ u, ∀ e ∈ x.graph.store.edges u, ∀ label ∈ e.labels, ∃ name,
      x.graph.features.name? label.1 = some name ∧ index.name? label.1 = some name := by
    intro u e member label isLabel
    obtain ⟨name, number⟩ := (coherent.edge member).2 label isLabel
    exact ⟨name, (coherent.lawful.inverse _ _).1 number, (lists.lawful.inverse _ _).1 (extends_ _ _ number)⟩
  refine ⟨_, reads, rfl, rfl, rfl, rfl, ?_, fun u node => ?_, fun u e member label isLabel => ?_⟩
  · rw [LearningGraph.edgeCount_ofEdges, ← decodes.length_eq, writable.edgeCount]
  · obtain ⟨positive, inside⟩ : 1 ≤ u ∧ u ≤ x.graph.store.nodeCount := LearningGraph.mem_nodes.1 node
    rw [LearningGraph.map_told_of_decodes decodes positive inside]
    refine List.map_congr_left fun e member => Edge.told_congr fun label isLabel => ?_
    obtain ⟨name, before, after⟩ := named u e member label isLabel
    rw [before, after]
  · obtain ⟨name, isNamed, -⟩ := named u e member label isLabel
    rw [isNamed]
    rfl

/-! ### Runs -/

namespace Grounder

variable {K : Type} [Scalar K] {r : Grounder} {p : Prover K} {features : FeatureTable}
  {names : List String} {e : LabelledExample} {examples : List LabelledExample}

/-- Grounds examples one after the other with one table of features. -/
def groundAll (r : Grounder) (p : Prover K) (features : FeatureTable) :
    List LabelledExample → List (Except Error GroundedExample) × FeatureTable
  | [] => ([], features)
  | e :: rest =>
    let first := r.ground p features e
    let others := groundAll r p first.2 rest
    (first.1 :: others.1, others.2)

/-- The constants of the program stand on one line, and so do those in the answers of the relations. -/
structure Tidy (r : Grounder) : Prop where
  program : TidyCode r.program.code.toList
  relations : ∀ q ∈ r.relations, q.Tidy

/-- Grounding fails in front of a proof and leaves the table as it is, or it asks a new graph for links and
leaves its table. -/
theorem ground_cases (r : Grounder) (p : Prover K) (features : FeatureTable) (e : LabelledExample) :
    (∃ err, r.ground p features e = (.error err, features)) ∨
    ∃ g, ProofGraph.new p.kind.graphKind e r.program r.relations features = .ok g ∧
      (r.ground p features e).2 = (p.proveOn g).2.features ∧
      ∀ x, (r.ground p features e).1 = .ok x →
        x.graph = (p.proveOn g).2 ∧ ∀ u ∈ x.pos ++ x.neg, (x.graph.store.state? u).isSome := by
  unfold ground Prover.makeGraph
  split
  · exact .inl ⟨_, rfl⟩
  split
  · exact .inl ⟨_, rfl⟩
  rename_i g made
  refine .inr ⟨g, made, ?_⟩
  rcases p.proveOn g with ⟨err | scores, g'⟩
  · exact ⟨rfl, fun x failed => by cases failed⟩
  · refine ⟨rfl, fun x done => ?_⟩
    cases done
    refine ⟨rfl, fun u member => ?_⟩
    rcases List.mem_append.1 member with pos | neg
    · exact isSome_of_mem_labelNodes pos
    · exact isSome_of_mem_labelNodes neg

theorem size_le_ground (r : Grounder) (p : Prover K) (features : FeatureTable) (e : LabelledExample) :
    features.size ≤ (r.ground p features e).2.size := by
  rcases r.ground_cases p features e with ⟨err, failed⟩ | ⟨g, made, table, -⟩
  · rw [failed]
  · rw [table, ← ProofGraph.features_new made]
    exact (p.questioned_proveOn g).size_le

theorem size_le_groundAll (r : Grounder) (p : Prover K) (features : FeatureTable)
    (examples : List LabelledExample) : features.size ≤ (r.groundAll p features examples).2.size := by
  induction examples generalizing features with
  | nil => exact le_rfl
  | cons e rest ih => exact (r.size_le_ground p features e).trans (ih _)

/-- Grounding an example adds legible names to the table. -/
theorem tidy_ground (tidy : r.Tidy) (isQuery : e.query.Tidy) (field : '\t' ∉ e.query.text.toList)
    (lists : features.Lists names) (few : (r.ground p features e).2.size + 1 < Numbers.limit) :
    ∃ more, (r.ground p features e).2.Lists (names ++ more) ∧ (∀ n ∈ more, Legible n) ∧
      ∀ x, (r.ground p features e).1 = .ok x → x.Tidy (names ++ more) := by
  rcases r.ground_cases p features e with ⟨err, failed⟩ | ⟨g, made, table, grounded⟩
  · rw [failed]
    refine ⟨[], by rwa [List.append_nil], ?_, fun x done => by cases done⟩
    exact fun n member => by cases member
  · have isNew := ProofGraph.tidy_new tidy.program tidy.relations isQuery lists made
    obtain ⟨-, labelled, -⟩ := ProofGraph.coherent_new lists.lawful made
    rw [table] at few
    obtain ⟨more, tidy', extends_, legible⟩ := isNew.questioned (p.questioned_proveOn g) few
    refine ⟨more, table ▸ tidy'.lists, legible, fun x done => ?_⟩
    obtain ⟨isGraph, labels⟩ := grounded x done
    refine ⟨isGraph ▸ tidy', ?_, labels⟩
    rw [GroundedExample.labelled, isGraph, extends_.labelled, labelled]
    exact field

/-- A run adds legible names to the table, and every example has been grounded with the names up to some
point. -/
theorem tidy_groundAll (tidy : r.Tidy)
    (queries : ∀ e ∈ examples, e.query.Tidy ∧ '\t' ∉ e.query.text.toList)
    (lists : features.Lists names)
    (few : (r.groundAll p features examples).2.size + 1 < Numbers.limit) :
    ∃ more, (r.groundAll p features examples).2.Lists (names ++ more) ∧ (∀ n ∈ more, Legible n) ∧
      ∀ x, .ok x ∈ (r.groundAll p features examples).1 →
        ∃ before behind, names ++ more = before ++ behind ∧ x.Tidy before := by
  induction examples generalizing features names with
  | nil =>
    refine ⟨[], by rwa [List.append_nil], ?_, ?_⟩
    · exact fun n member => by cases member
    · exact fun x member => by cases member
  | cons e rest ih =>
    obtain ⟨⟨isQuery, field⟩, others⟩ := List.forall_mem_cons.1 queries
    have grows := r.size_le_groundAll p (r.ground p features e).2 rest
    obtain ⟨more, lists₁, legible, here⟩ := tidy_ground (p := p) tidy isQuery field lists
      (Nat.lt_of_le_of_lt (Nat.add_le_add_right grows 1) few)
    obtain ⟨more', lists', legible', behind⟩ := ih others lists₁ few
    rw [List.append_assoc] at lists'
    refine ⟨more ++ more', lists', List.forall_mem_append.2 ⟨legible, legible'⟩, fun x member => ?_⟩
    rcases List.mem_cons.1 member with first | later
    · exact ⟨names ++ more, more', (List.append_assoc ..).symm, here x first.symm⟩
    · obtain ⟨before, after, same, isTidy⟩ := behind x later
      exact ⟨before, after, (List.append_assoc ..).symm.trans same, isTidy⟩

/-- Whatever has been grounded in a run can be read from its line as it was grounded, with the table that
the run leaves in the end, saved in a file and loaded again. The rules and the examples have been read from
texts, and so have the relations, whose names stand on one line. There must be numbers for the names, and
counts must fit in words. -/
theorem retells_groundAll (r : Grounder) (p : Prover K) {source : String} {rules : List Rule}
    (program : Rule.parseAll? source = .ok rules) (compiled : compileRules rules = .ok r.program)
    (relations : ∀ q ∈ r.relations, q.Written)
    (read : ∀ e ∈ examples, ∃ text line, LabelledExample.parse? text line = .ok e)
    (few : (r.groundAll p .empty examples).2.size + 1 < Numbers.limit) :
    ∃ index,
      (∀ path name, Store.fileOf? path = some name → ∀ s, ∃ s',
        (r.groundAll p .empty examples).2.save (m := StateM Store) path s = (.ok (), s') ∧
          FeatureTable.load (m := StateM Store) path s' = (.ok index, s')) ∧
      ∀ x, .ok x ∈ (r.groundAll p .empty examples).1 → x.graph.store.Fits →
        ∃ te, TrainingExample.parse? x.line (some index) = .ok te ∧ te.Retells x := by
  have tidy : r.Tidy :=
    ⟨tidy_of_compileRules (Rule.tidy_of_parseAll? program) compiled,
      fun q member => (relations q member).tidy⟩
  have queries : ∀ e ∈ examples, e.query.Tidy ∧ '\t' ∉ e.query.text.toList := by
    intro e member
    obtain ⟨text, line, parsed⟩ := read e member
    exact ⟨LabelledExample.tidy_of_parse? parsed, LabelledExample.query_of_parse? parsed⟩
  obtain ⟨names, lists, legible, grounded⟩ := tidy_groundAll tidy queries FeatureTable.lists_empty few
  obtain ⟨index, reads, lists'⟩ := lists.parse?_text legible
  refine ⟨index, fun path name place s => FeatureTable.load_of_save place reads s, fun x member fits => ?_⟩
  obtain ⟨before, behind, same, isTidy⟩ := grounded x member
  exact isTidy.retells (same ▸ lists') fits

end Grounder

/-- The links of the question and of its answer carry four features. -/
theorem ProofGraph.FactGraphs.size_features_le {g g₁ g₂ : ProofGraph} {e₁ e₂ : Expansion}
    (graphs : FactGraphs g g₁ g₂ e₁ e₂) : g₂.features.size ≤ g.features.size + 4 := by
  have first := size_expanded_le graphs.first
  have second := size_expanded_le graphs.second
  have count₁ : featureCount (e₁.links true) = 2 := by
    rw [graphs.links₁]
    rfl
  have count₂ : featureCount (e₂.links true) = 2 := by
    rw [graphs.links₂]
    rfl
  omega

open ProofGraph in
/-- The question of the fact can be read back, with the node of its answer. -/
theorem Grounder.retells_groundAll_fact :
    ∃ x te index, .ok x ∈ (factGrounder.groundAll (.new .dpr restless forward) .empty [askFact]).1 ∧
      x.pos = [2] ∧
      (∀ s, ∃ s', (factGrounder.groundAll (.new .dpr restless forward) .empty [askFact]).2.save
          (m := StateM Store) "grounded.features" s = (.ok (), s') ∧
        FeatureTable.load (m := StateM Store) "grounded.features" s' = (.ok index, s')) ∧
      TrainingExample.parse? x.line (some index) = .ok te ∧ te.Retells x := by
  obtain ⟨x, g, scores, grounds, made, proved, -, pos, -⟩ := ground_restless
  -- the graph is that of the fact, with both nodes expanded
  obtain ⟨g', made', isCode, isStart⟩ := exists_factGraph .state .empty
  obtain rfl : g = g' := Except.ok.inj (made.symm.trans made')
  obtain ⟨g₁, g₂, e₁, e₂, graphs⟩ :=
    exists_factGraphs FeatureTable.lawful_empty ⟨by decide, by decide⟩ made isCode isStart
  have isGraph : x.graph = g₂ := congrArg Prod.snd (proved.symm.trans graphs.proveOn_restless)
  have member : .ok x ∈ (factGrounder.groundAll (.new .dpr restless forward) .empty [askFact]).1 :=
    List.mem_singleton.2 grounds.symm
  have few : (factGrounder.groundAll (.new .dpr restless forward) .empty [askFact]).2.size + 1 <
      Numbers.limit := by
    have size := graphs.size_features_le
    rw [features_new made] at size
    rcases factGrounder.ground_cases (.new .dpr restless forward) .empty askFact with
      ⟨err, failed⟩ | ⟨g', made', table, -⟩
    · rw [failed] at grounds
      cases grounds
    · obtain rfl : g = g' := Except.ok.inj (made.symm.trans made')
      rw [graphs.proveOn_restless] at table
      change (factGrounder.ground (.new .dpr restless forward) .empty askFact).2.size + 1 < _
      rw [table]
      exact Nat.lt_of_le_of_lt (Nat.add_le_add_right size 1) (by decide +kernel)
  have fits : x.graph.store.Fits := by
    obtain ⟨sound, -, -⟩ := sound_new FeatureTable.lawful_empty made
    have granted : g.Granted g₂ := .tail (.single ⟨1, e₁, graphs.first⟩) ⟨2, e₂, graphs.second⟩
    rw [isGraph]
    exact graphs.fits (.inr (.inr rfl)) (sound.granted granted).1
  have program : Rule.parseAll? "p(a) {go}." = .ok factRules := rfl
  have read : LabelledExample.parse? "p(a)\t+p(a)" 1 = .ok askFact := rfl
  have examples : ∀ e ∈ [askFact], ∃ text line, LabelledExample.parse? text line = .ok e :=
    List.forall_mem_singleton.2 ⟨_, _, read⟩
  obtain ⟨index, saved, lines⟩ := retells_groundAll factGrounder (.new .dpr restless forward) program
    compileRules_factRules (fun q none => by cases none) examples few
  obtain ⟨te, reads, retells⟩ := lines x member fits
  exact ⟨x, te, index, member, pos, saved "grounded.features" _ rfl, reads, retells⟩

end ProofWalk
