import Mathlib.Data.List.Forall2
import ProofWalk.Proofs.Learning.Decoding
import ProofWalk.Proofs.Learning.Sources

/-!
# The listing of a graph

A grounded line lists the edges of its graph one by one, with the numbers of their nodes and of their
features. Such a listing is what the line says about the graph; the compact form in which the graph is
kept has the same edges in another order and under other numbers of features. What is read from a line
represents its listing, in whatever order the edges are listed.

## Main definitions

* `ListedEdge`, `Listing` — the edges of a line as they stand there
* `Spells` — the fields of a line spell a listing
* `LearningGraph.Represents` — a compact graph and a listing say the same

## Main results

* `Spells.unique` — a line spells one listing at most
* `LearningGraph.represents_of_parse?` — a graph that has been read represents the listing of its line
-/

namespace ProofWalk

/-! ### Listings -/

/-- An edge of a listing: its nodes, and its labels with features by the numbers of the listing. -/
structure ListedEdge where
  source : Nat
  target : Nat
  labels : List (Nat × Float)

/-- What a line says about its graph: the three counts in front, where the names of features stand, and
the edges. -/
structure Listing where
  nodeCount : Nat
  edgeCount : Nat
  dependencies : Nat
  names : FeatureNames
  edges : List ListedEdge

/-- The name that a number of a listing stands for. -/
def FeatureNames.name? (names : FeatureNames) (k : Nat) : Option String :=
  match names with
  | .inline names => if k = 0 then none else names[k - 1]?
  | .table features => features.bind (·.name? k)

/-- A count may have blanks around it. -/
def SpellsCount (s : List Char) (n : Nat) : Prop := Text.readCount? (Text.trim s) = some n

/-- A label is the number of a feature, with a weight behind a mark unless it is one. -/
inductive SpellsLabel : List Char → Nat × Float → Prop
  | plain {number : List Char} {k : Nat} (isNumber : Text.readCount? number = some k) :
    SpellsLabel number (k, 1)
  | weighted {number weight : List Char} {k : Nat} {w : Float}
    (isNumber : Text.readCount? number = some k) (isWeight : Decimal.readChars? weight = some w) :
    SpellsLabel (number ++ ['@'] ++ weight) (k, w)

/-- An edge is two nodes with an arrow between them, and labels behind a colon. -/
inductive SpellsEdge : List Char → ListedEdge → Prop
  | mk {source target labels : List Char} {edge : ListedEdge} (isSource : SpellsCount source edge.source)
    (isTarget : SpellsCount target edge.target)
    (areLabels : List.Forall₂ SpellsLabel (filledPieces ',' labels) edge.labels) :
    SpellsEdge (source ++ ['-', '>'] ++ (target ++ [':'] ++ labels)) edge

/-- The names stand in the first field behind the counts if that holds no arrow, and else in the index.
The fields of edges follow. -/
inductive SpellsNames (index : Option FeatureTable) :
    List (List Char) → FeatureNames → List (List Char) → Prop
  | listed {field : List Char} {fields : List (List Char)} (noArrow : ¬['-', '>'] <:+: field) :
    SpellsNames index (field :: fields) (.inline ((filledPieces ':' field).map String.ofList).toArray) fields
  | indexed {fields : List (List Char)} (arrow : ∀ field ∈ fields.head?, ['-', '>'] <:+: field) :
    SpellsNames index fields (.table index) fields

/-- The fields of a line spell a listing. Blank fields among the edges say nothing. -/
inductive Spells (index : Option FeatureTable) : List (List Char) → Listing → Prop
  | mk {nodes edges dependencies : List Char} {rest fields : List (List Char)} {t : Listing}
    (areNodes : SpellsCount nodes t.nodeCount) (areCounted : SpellsCount edges t.edgeCount)
    (areDependencies : SpellsCount dependencies t.dependencies)
    (areNames : SpellsNames index rest t.names fields)
    (areEdges : List.Forall₂ SpellsEdge (fields.filter fun field => !Text.isAllBlank field) t.edges) :
    Spells index (nodes :: edges :: dependencies :: rest) t

/-! ### A line spells one listing -/

theorem SpellsCount.unique {s : List Char} {n m : Nat} (first : SpellsCount s n)
    (second : SpellsCount s m) : n = m :=
  Option.some.inj (first.symm.trans second)

/-- A mark that is no blank, no digit and no sign is not in a count. -/
theorem SpellsCount.not_mem {s : List Char} {n : Nat} (spells : SpellsCount s n) {m : Char}
    (ink : Text.isBlank m = false) (sign : m ≠ '+') (digit : m.isDigit = false) : m ∉ s := by
  intro member
  rcases Text.isDigit_of_readCount? spells (Text.mem_trim member ink) with isSign | isDigit
  · exact sign isSign
  · rw [digit] at isDigit
    cases isDigit

/-- The number of a label holds no mark. -/
private theorem not_mem_number {number : List Char} {k : Nat} (isNumber : Text.readCount? number = some k) :
    '@' ∉ number := by
  intro member
  rcases Text.isDigit_of_readCount? isNumber member with sign | digit
  · cases sign
  · cases digit

theorem SpellsLabel.unique : Relator.RightUnique SpellsLabel := by
  intro s label label' first second
  have cut (number weight : List Char) {k : Nat} (isNumber : Text.readCount? number = some k) :
      cutAt ['@'] (number ++ ['@'] ++ weight) = some (number, weight) :=
    cutAt_append (not_mem_number isNumber) weight
  -- both labels are made of one text, so a mark in the one is a mark in the other
  generalize same : s = text at second
  cases first with
  | plain isNumber =>
    cases second with
    | plain isNumber' =>
      subst same
      rw [isNumber] at isNumber'
      cases isNumber'
      rfl
    | weighted =>
      subst same
      exact absurd (by simp) (not_mem_number isNumber)
  | weighted isNumber isWeight =>
    cases second with
    | plain isNumber' =>
      subst same
      exact absurd (by simp) (not_mem_number isNumber')
    | weighted isNumber' isWeight' =>
      have cuts := (cut _ _ isNumber).symm.trans ((congrArg (cutAt ['@']) same).trans (cut _ _ isNumber'))
      cases cuts
      rw [isNumber] at isNumber'
      rw [isWeight] at isWeight'
      cases isNumber'
      cases isWeight'
      rfl

/-- An edge is cut where its arrow and its colon stand. -/
theorem SpellsEdge.cut {field : List Char} {edge : ListedEdge} (spells : SpellsEdge field edge) :
    ∃ source target labels, cutAt ['-', '>'] field = some (source, target ++ [':'] ++ labels) ∧
      cutAt [':'] (target ++ [':'] ++ labels) = some (target, labels) ∧ SpellsCount source edge.source ∧
      SpellsCount target edge.target ∧ List.Forall₂ SpellsLabel (filledPieces ',' labels) edge.labels := by
  cases spells with
  | @mk source target labels _ isSource isTarget areLabels =>
    exact ⟨source, target, labels,
      cutAt_append (isSource.not_mem (by decide) (by decide) (by decide)) _,
      cutAt_append (isTarget.not_mem (by decide) (by decide) (by decide)) _,
      isSource, isTarget, areLabels⟩

theorem SpellsEdge.unique : Relator.RightUnique SpellsEdge := by
  intro field edge edge' first second
  obtain ⟨source, target, labels, arrow, colon, isSource, isTarget, areLabels⟩ := first.cut
  obtain ⟨source', target', labels', arrow', colon', isSource', isTarget', areLabels'⟩ := second.cut
  rw [arrow] at arrow'
  obtain ⟨rfl, behind⟩ := Prod.mk.inj (Option.some.inj arrow')
  rw [← behind, colon] at colon'
  cases colon'
  cases edge
  cases edge'
  cases isSource.unique isSource'
  cases isTarget.unique isTarget'
  cases SpellsLabel.unique.forall₂ areLabels areLabels'
  rfl

theorem SpellsNames.unique {index : Option FeatureTable} {rest fields fields' : List (List Char)}
    {names names' : FeatureNames} (first : SpellsNames index rest names fields)
    (second : SpellsNames index rest names' fields') : names = names' ∧ fields = fields' := by
  cases first with
  | listed noArrow =>
    cases second with
    | listed => exact ⟨rfl, rfl⟩
    | indexed arrow => exact absurd (arrow _ rfl) noArrow
  | indexed arrow =>
    cases second with
    | listed noArrow => exact absurd (arrow _ rfl) noArrow
    | indexed => exact ⟨rfl, rfl⟩

/-- A line spells one listing at most. -/
theorem Spells.unique {index : Option FeatureTable} {fields : List (List Char)} {t t' : Listing}
    (first : Spells index fields t) (second : Spells index fields t') : t = t' := by
  cases first with
  | mk nodes counted dependencies names edges =>
    cases second with
    | mk nodes' counted' dependencies' names' edges' =>
      obtain ⟨sameNames, rfl⟩ := names.unique names'
      cases t
      cases t'
      cases nodes.unique nodes'
      cases counted.unique counted'
      cases dependencies.unique dependencies'
      cases sameNames
      cases SpellsEdge.unique.forall₂ edges edges'
      rfl

/-! ### The compact form of a listing -/

namespace LearningGraph

/-- A label with a number of the graph says what a label of the listing says: it has the same weight, and
its number has the name that the number of the listing stands for. -/
def SameLabel (names : FeatureNames) (features : Array String) (label listed : Nat × Float) : Prop :=
  label.2 = listed.2 ∧ ∃ name, features[label.1]? = some name ∧ names.name? listed.1 = some name

/-- An edge says what an edge of the listing says about its target and its labels. -/
def SameEdge (names : FeatureNames) (features : Array String) (edge : LearningEdge) (listed : ListedEdge) :
    Prop :=
  edge.target = listed.target ∧ List.Forall₂ (SameLabel names features) edge.labels listed.labels

/-- A graph in its compact form and a listing say the same. -/
structure Represents (g : LearningGraph) (t : Listing) : Prop where
  nodeCount : g.nodeCount = t.nodeCount
  dependencies : g.dependencies = t.dependencies
  /-- There are as many edges as the listing declares. -/
  edgeCount : g.edgeCount = t.edgeCount
  /-- The ranges of the nodes follow each other and leave no edge out. -/
  ranges : (List.range' 1 g.nodeCount).flatMap g.edgesOf = List.range g.edgeCount
  /-- What is no node has no edges. -/
  outside : ∀ u, ¬(1 ≤ u ∧ u ≤ g.nodeCount) → g.edgesOf u = []
  /-- A source has its edges in the order of the listing. -/
  edges : ∀ u, List.Forall₂ (fun e listed => SameEdge t.names g.features (g.edge e) listed) (g.edgesOf u)
    (t.edges.filter fun listed => listed.source == u)
  /-- A name has one number. -/
  features : g.features.toList.Nodup
  /-- Edges lead to nodes. -/
  targets : ∀ e < g.edgeCount, 1 ≤ g.target e ∧ g.target e ≤ g.nodeCount

variable {names : FeatureNames} {l l' : LocalFeatures} {nodes : Nat}

theorem SameLabel.mono (more : l.Extends l') {label listed : Nat × Float}
    (same : SameLabel names l.names label listed) : SameLabel names l'.names label listed := by
  obtain ⟨weight, name, met, named⟩ := same
  exact ⟨weight, name, more _ _ met, named⟩

theorem SameEdge.mono (more : l.Extends l') {edge : LearningEdge} {listed : ListedEdge}
    (same : SameEdge names l.names edge listed) : SameEdge names l'.names edge listed :=
  ⟨same.1, same.2.imp fun _ _ label => label.mono more⟩

/-- A name that has been found is the one that the number stands for. -/
theorem name?_of_nameOf {k : Nat} {name : String} (found : nameOf names k = .ok name) :
    names.name? k = some name := by
  cases names with
  | inline names =>
    rw [nameOf] at found
    split at found
    · rename_i isName
      cases found
      exact isName
    · cases found
  | table features =>
    rw [nameOf] at found
    split at found
    · rename_i isName
      cases found
      split at isName
      · cases isName
      · exact isName
    · cases found

/-- The number and the weight of a label. -/
private def labelParts? (text : List Char) : Except GroundedFault (List Char × Float) :=
  match cutAt ['@'] text with
  | none => .ok (text, 1)
  | some (number, weight) =>
    match Decimal.readChars? weight with
    | some w => .ok (number, w)
    | none => .error (.badLabelWeight (String.ofList text))

/-- A label is cut into its parts first. -/
private theorem parseLabel?_eq (text : List Char) :
    parseLabel? names l text = labelParts? text >>= fun (number, weight) =>
      match Text.readCount? number with
      | none => .error (.badFeatureNumber (String.ofList number))
      | some k => nameOf names k >>= fun name =>
          .ok (((l.number name).1, weight), (l.number name).2) := by
  unfold parseLabel? labelParts?
  cases cutAt ['@'] text with
  | none => rfl
  | some parts =>
    obtain ⟨number, weight⟩ := parts
    cases isWeight : Decimal.readChars? weight with
    | none =>
      simp only [isWeight]
      rfl
    | some w =>
      simp only [isWeight]
      rfl

/-- What a label is read as. -/
theorem spells_of_parseLabel? {text : List Char} {label : Nat × Float} (lawful : l.Lawful)
    (parsed : parseLabel? names l text = .ok (label, l')) :
    ∃ listed, SpellsLabel text listed ∧ l'.Lawful ∧ l.Extends l' ∧ SameLabel names l'.names label listed := by
  rw [parseLabel?_eq] at parsed
  obtain ⟨⟨number, weight⟩, isCut, parsed⟩ := Except.bind_eq_ok.1 parsed
  simp only at parsed
  split at parsed
  · cases parsed
  rename_i k isNumber
  obtain ⟨name, isName, parsed⟩ := Except.bind_eq_ok.1 parsed
  cases parsed
  obtain ⟨lawful', more, met⟩ := LocalFeatures.number_spec lawful name
  refine ⟨(k, weight), ?_, lawful', more, rfl, name, met, name?_of_nameOf isName⟩
  unfold labelParts? at isCut
  split at isCut
  · cases isCut
    exact .plain isNumber
  · rename_i before after cut
    rw [eq_append_of_cutAt cut]
    split at isCut
    · rename_i isWeight
      cases isCut
      exact .weighted isNumber isWeight
    · cases isCut

/-- What labels are read as. -/
theorem spells_of_parseLabels? {texts : List (List Char)} {labels : List (Nat × Float)} (lawful : l.Lawful)
    (parsed : parseLabels? names l texts = .ok (labels, l')) :
    ∃ listed, List.Forall₂ SpellsLabel texts listed ∧ l'.Lawful ∧ l.Extends l' ∧
      List.Forall₂ (SameLabel names l'.names) labels listed := by
  induction texts generalizing l labels with
  | nil =>
    cases parsed
    exact ⟨[], .nil, lawful, .refl _, .nil⟩
  | cons text rest ih =>
    obtain ⟨⟨label, l₁⟩, here, parsed⟩ := Except.bind_eq_ok.1 parsed
    obtain ⟨⟨others, l₂⟩, behind, equal⟩ := Except.bind_eq_ok.1 parsed
    cases equal
    obtain ⟨first, isFirst, lawful₁, more₁, same⟩ := spells_of_parseLabel? lawful here
    obtain ⟨later, areLater, lawful₂, more₂, sameLater⟩ := ih lawful₁ behind
    exact ⟨first :: later, .cons isFirst areLater, lawful₂, more₁.trans more₂,
      .cons (same.mono more₂) sameLater⟩

/-- What an edge is read as. -/
theorem spells_of_parseEdge? {field : List Char} {e : Nat × LearningEdge} (lawful : l.Lawful)
    (parsed : parseEdge? nodes names l field = .ok (e, l')) :
    ∃ listed, SpellsEdge field listed ∧ l'.Lawful ∧ l.Extends l' ∧ e.1 = listed.source ∧
      SameEdge names l'.names e.2 listed := by
  unfold parseEdge? at parsed
  simp only at parsed
  split at parsed
  case h_2 => cases parsed
  rename_i source tail arrow
  split at parsed
  case h_2 => cases parsed
  rename_i target labels colon
  split at parsed
  case h_2 => cases parsed
  rename_i u isSource
  split at parsed
  case h_2 => cases parsed
  rename_i v isTarget
  split at parsed
  · cases parsed
  obtain ⟨⟨read, l₁⟩, areRead, equal⟩ := Except.bind_eq_ok.1 parsed
  cases equal
  obtain ⟨listed, areLabels, lawful', more, same⟩ := spells_of_parseLabels? lawful areRead
  refine ⟨⟨u, v, listed⟩, ?_, lawful', more, rfl, rfl, same⟩
  rw [eq_append_of_cutAt arrow, eq_append_of_cutAt colon]
  exact .mk isSource isTarget areLabels

/-- What edges are read as. -/
theorem spells_of_parseEdges? {fields : List (List Char)} {edges : List (Nat × LearningEdge)}
    (lawful : l.Lawful) (parsed : parseEdges? nodes names l fields = .ok (edges, l')) :
    ∃ listed, List.Forall₂ SpellsEdge fields listed ∧ l'.Lawful ∧ l.Extends l' ∧
      List.Forall₂ (fun e listed => e.1 = listed.source ∧ SameEdge names l'.names e.2 listed)
        edges listed := by
  induction fields generalizing l edges with
  | nil =>
    cases parsed
    exact ⟨[], .nil, lawful, .refl _, .nil⟩
  | cons field rest ih =>
    obtain ⟨⟨e, l₁⟩, here, parsed⟩ := Except.bind_eq_ok.1 parsed
    obtain ⟨⟨others, l₂⟩, behind, equal⟩ := Except.bind_eq_ok.1 parsed
    cases equal
    obtain ⟨first, isFirst, lawful₁, more₁, source, same⟩ := spells_of_parseEdge? lawful here
    obtain ⟨later, areLater, lawful₂, more₂, sameLater⟩ := ih lawful₁ behind
    exact ⟨first :: later, .cons isFirst areLater, lawful₂, more₁.trans more₂,
      .cons ⟨source, same.mono more₂⟩ sameLater⟩

/-- Names that are numbered lawfully are distinct. -/
theorem nodup_of_lawful (lawful : l.Lawful) : l.names.toList.Nodup := by
  rw [List.nodup_iff_getElem?_ne_getElem?]
  intro i j before inside same
  rw [Array.getElem?_toList, Array.getElem?_toList] at same
  rw [Array.length_toList] at inside
  have name := Array.getElem?_eq_getElem inside
  have number := (lawful _ _).2 name
  rw [(lawful _ _).2 (same.trans name)] at number
  exact absurd (Option.some.inj number) (Nat.ne_of_lt before)

/-- They are told apart as they are spelled. -/
private theorem spellsNames_splitNames (index : Option FeatureTable) (rest : List (List Char)) :
    SpellsNames index rest (splitNames index rest).1 (splitNames index rest).2 := by
  cases rest with
  | nil => exact .indexed fun field member => by cases member
  | cons field rest =>
    rw [splitNames]
    split
    · rename_i arrow
      refine .indexed fun first isFirst => ?_
      cases isFirst
      exact isSome_cutAt_iff.1 arrow
    · rename_i noArrow
      exact .listed fun arrow => noArrow (isSome_cutAt_iff.2 arrow)

/-- A count that has been read stands in its field. -/
private theorem spells_of_parseCount? {field : Option (List Char)} {which : HeaderCount} {n : Nat}
    (parsed : parseCount? field which = .ok n) : ∃ text, field = some text ∧ SpellsCount text n := by
  unfold parseCount? at parsed
  split at parsed
  · cases parsed
  · rename_i text
    split at parsed
    · rename_i isCount
      cases parsed
      exact ⟨text, rfl, isCount⟩
    · cases parsed

/-- Edges with the same sources and the same contents, node by node. -/
private theorem forall₂_edgesOf {edges : List (Nat × LearningEdge)} {listed : List ListedEdge}
    {dependencies : Nat}
    (inside : ∀ e ∈ edges, (1 ≤ e.1 ∧ e.1 ≤ nodes) ∧ 1 ≤ e.2.target ∧ e.2.target ≤ nodes)
    (same : List.Forall₂ (fun e listed => e.1 = listed.source ∧ SameEdge names l.names e.2 listed)
      edges listed) (u : Nat) :
    List.Forall₂
      (fun e listed => SameEdge names l.names ((ofEdges nodes edges l.names dependencies).edge e) listed)
      ((ofEdges nodes edges l.names dependencies).edgesOf u)
      (listed.filter fun listed => listed.source == u) := by
  have here : List.Forall₂ (fun e listed => e.1 = listed.source ∧ SameEdge names l.names e.2 listed)
      (edges.filter fun e => e.1 == u) (listed.filter fun listed => listed.source == u) :=
    List.rel_filter (fun e listed same => iff_of_eq (congrArg (fun v => (v == u) = true) same.1)) same
  have contents := List.forall₂_map_left_iff.2 (here.imp fun _ _ same => same.2)
  by_cases node : 1 ≤ u ∧ u ≤ nodes
  · rw [← @map_edge_edgesOf nodes edges l.names dependencies u node.1 node.2] at contents
    exact List.forall₂_map_left_iff.1 contents
  · -- nothing is listed for what is no node
    have none : edges.filter (fun e => e.1 == u) = [] := by
      rw [List.filter_eq_nil_iff]
      intro e member isSource
      exact node (beq_iff_eq.1 isSource ▸ (inside e member).1)
    rw [none, List.forall₂_nil_left_iff] at here
    rw [edgesOf_outside node, here]
    exact .nil

/-- A graph that has been read names every feature once. -/
theorem nodup_features_of_parse? {fields : List (List Char)} {index : Option FeatureTable}
    {g : LearningGraph} (parsed : parse? fields index = .ok g) : g.features.toList.Nodup := by
  rw [parse?_eq] at parsed
  obtain ⟨nodes, -, parsed⟩ := Except.bind_eq_ok.1 parsed
  obtain ⟨edgeCount, -, parsed⟩ := Except.bind_eq_ok.1 parsed
  obtain ⟨dependencies, -, parsed⟩ := Except.bind_eq_ok.1 parsed
  obtain ⟨⟨edges, l⟩, read, parsed⟩ := Except.bind_eq_ok.1 parsed
  obtain ⟨-, -, lawful, -⟩ := spells_of_parseEdges? LocalFeatures.lawful_empty read
  simp only at parsed
  split at parsed
  · cases parsed
  · cases parsed
    exact nodup_of_lawful lawful

/-- A graph that has been read from the fields of a line represents the listing that the fields spell. -/
theorem represents_of_parse? {fields : List (List Char)} {index : Option FeatureTable} {g : LearningGraph}
    (parsed : parse? fields index = .ok g) : ∃ t, Spells index fields t ∧ g.Represents t := by
  have wellFormed := wellFormed_of_parse? parsed
  rw [parse?_eq] at parsed
  obtain ⟨nodes, nodesRead, parsed⟩ := Except.bind_eq_ok.1 parsed
  obtain ⟨edgeCount, edgesRead, parsed⟩ := Except.bind_eq_ok.1 parsed
  obtain ⟨dependencies, dependenciesRead, parsed⟩ := Except.bind_eq_ok.1 parsed
  obtain ⟨⟨edges, l⟩, read, parsed⟩ := Except.bind_eq_ok.1 parsed
  have areNames := spellsNames_splitNames index (fields.drop 3)
  obtain ⟨listed, areEdges, lawful, -, same⟩ := spells_of_parseEdges? LocalFeatures.lawful_empty read
  have inside := inside_of_parseEdges? read
  simp only at parsed
  split at parsed
  · cases parsed
  rename_i declared
  cases parsed
  -- the listing keeps the edges in the order of the fields, while the graph sorts them by their sources
  refine ⟨⟨nodes, edgeCount, dependencies, (splitNames index (fields.drop 3)).1, listed⟩, ?_, ?_⟩
  · obtain ⟨a, isNodes, areNodes⟩ := spells_of_parseCount? nodesRead
    obtain ⟨b, isEdges, areCounted⟩ := spells_of_parseCount? edgesRead
    obtain ⟨c, isDependencies, areDependencies⟩ := spells_of_parseCount? dependenciesRead
    match fields, isNodes, isEdges, isDependencies, areNames with
    | a :: b :: c :: rest, rfl, rfl, rfl, areNames =>
      exact .mk areNodes areCounted areDependencies areNames areEdges
  · exact
      { nodeCount := rfl
        dependencies := rfl
        edgeCount := (edgeCount_ofEdges ..).trans (not_not.1 declared)
        ranges := wellFormed.ranges
        outside := fun u outside => edgesOf_outside outside
        edges := forall₂_edgesOf inside same
        features := nodup_of_lawful lawful
        targets := wellFormed.targets }

/-- A line that names a feature twice and lists its edges in no order of their sources. -/
def scattered : List (List Char) :=
  ["3", "4", "7", "a:b:a", "2->3:3@0.5,2", "1->2:2", " ", "2->1:1,3", "1->1:"].map String.toList

theorem represents_of_parse?_scattered :
    ∃ g, parse? scattered none = .ok g ∧ ∃ t, Spells none scattered t ∧ g.Represents t := by
  have read : (parse? scattered none).isOk := rfl
  cases parsed : parse? scattered none with
  | error fault =>
    rw [parsed] at read
    cases read
  | ok g => exact ⟨g, rfl, represents_of_parse? parsed⟩

end LearningGraph

end ProofWalk
