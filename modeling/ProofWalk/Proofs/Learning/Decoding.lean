import ProofWalk.Grounding.Basic
import ProofWalk.Proofs.Decimal.RoundTrip
import ProofWalk.Proofs.Learning.Ranges
import ProofWalk.Proofs.Text.Fields

/-!
# Reading back a grounded line

A line that was written for a graph reads as the edges that were written. The reader numbers features
anew in the order in which it meets them, but under its numbers they have the names that they have in
the table of the run.

## Main definitions

* `LocalFeatures.Lawful`, `LocalFeatures.Extends` — names and numbers while a line is read
* `LocalFeatures.Decodes` — an edge has been read as it was written

## Main results

* `LearningGraph.parseEdges?_edgeText` — edges read back
* `TrainingExample.parse?_line` — a whole line reads back
-/

namespace ProofWalk

/-! ### Features -/

namespace LocalFeatures

/-- Names and numbers determine each other. -/
def Lawful (l : LocalFeatures) : Prop :=
  ∀ (name : String) (k : Nat), l.numbers[name]? = some k ↔ l.names[k]? = some name

/-- The names that have been met keep their numbers. -/
def Extends (l l' : LocalFeatures) : Prop :=
  ∀ (k : Nat) (name : String), l.names[k]? = some name → l'.names[k]? = some name

variable {l l' l'' : LocalFeatures}

theorem Extends.refl (l : LocalFeatures) : l.Extends l := fun _ _ met => met

theorem Extends.trans (first : l.Extends l') (second : l'.Extends l'') : l.Extends l'' :=
  fun k name met => second k name (first k name met)

theorem lawful_empty : empty.Lawful := by
  intro name k
  change (∅ : Std.HashMap String Nat)[name]? = some k ↔ (#[] : Array String)[k]? = some name
  simp

/-- A name has a number from then on. -/
theorem number_spec (lawful : l.Lawful) (name : String) :
    (l.number name).2.Lawful ∧ l.Extends (l.number name).2 ∧
      (l.number name).2.names[(l.number name).1]? = some name := by
  unfold number
  cases met : l.numbers[name]? with
  | some k => exact ⟨lawful, .refl l, (lawful name k).1 met⟩
  | none =>
    have number (x : String) : (l.numbers.insert name l.names.size)[x]? =
        if name = x then some l.names.size else l.numbers[x]? := by
      simp only [Std.HashMap.getElem?_insert, beq_iff_eq]
    refine ⟨fun x k => ?_, fun k x met' => ?_, Array.getElem?_push_size⟩
    · simp only [number, Array.getElem?_push]
      by_cases isName : name = x
      · subst isName
        rw [if_pos rfl]
        by_cases last : k = l.names.size
        · simp [last]
        · rw [if_neg last, ← lawful, met]
          simp [Ne.symm last]
      · rw [if_neg isName]
        by_cases last : k = l.names.size
        · subst last
          simp [lawful x, isName]
        · rw [if_neg last, lawful]
    · have inside : k < l.names.size := by
        by_contra outside
        rw [Array.getElem?_eq_none (Nat.le_of_not_lt outside)] at met'
        cases met'
      rw [Array.getElem?_push, if_neg (Nat.ne_of_lt inside)]
      exact met'

/-- A label has been read as it was written. -/
def Reads (l : LocalFeatures) (t : FeatureTable) (label label' : Nat × Float) : Prop :=
  (∃ name, t.name? label.1 = some name ∧ l.names[label'.1]? = some name) ∧ label'.2 = label.2

/-- An edge has been read as it was written. -/
def Decodes (l : LocalFeatures) (t : FeatureTable) (edge : Edge) (edge' : LearningEdge) : Prop :=
  edge'.target = edge.target ∧ List.Forall₂ (l.Reads t) edge.labels edge'.labels

theorem Reads.mono {t : FeatureTable} {label label' : Nat × Float} (more : l.Extends l')
    (reads : l.Reads t label label') : l'.Reads t label label' := by
  obtain ⟨⟨name, named, met⟩, same⟩ := reads
  exact ⟨⟨name, named, more _ _ met⟩, same⟩

theorem Decodes.mono {t : FeatureTable} {edge : Edge} {edge' : LearningEdge} (more : l.Extends l')
    (decodes : l.Decodes t edge edge') : l'.Decodes t edge edge' :=
  ⟨decodes.1, decodes.2.imp fun _ _ reads => reads.mono more⟩

end LocalFeatures

/-! ### Texts -/

namespace GraphStore

theorem toList_natText (n : Nat) : (natText n).toList = Decimal.natDigits n := String.toList_ofList

variable {number : Nat → Nat}

/-- The characters of a label: digits, and the mark with a weight. -/
theorem toList_labelText (number : Nat → Nat) (label : Nat × Float) :
    (labelText number label).toList =
      Decimal.natDigits (number label.1) ++ if label.2 != 1 then '@' :: Decimal.plainChars label.2 else [] := by
  unfold labelText
  split
  · rw [String.toList_append, String.toList_append, toList_natText, Decimal.plain,
      String.toList_ofList, String.toList_ofList]
    rfl
  · rw [String.toList_append, toList_natText]
    rfl

/-- The characters of an edge. -/
theorem toList_edgeText (number : Nat → Nat) (u : Nat) (e : Edge) :
    (edgeText number u e).toList = Decimal.natDigits u ++ ['-', '>'] ++
      (Decimal.natDigits e.target ++ [':'] ++
        [','].intercalate (e.labels.map fun label => (labelText number label).toList)) := by
  unfold edgeText
  simp only [String.toList_append, toList_natText, String.toList_intercalate, List.map_map,
    List.append_assoc]
  rfl

/-- The characters of edges, apart from digits. -/
def marks : List Char := ['>', ':', ',', '@', '-', '.', 'i', 'n', 'f', 'N', 'a']

/-- Labels are written with digits and the characters of weights. -/
theorem mem_labelText {c : Char} {label : Nat × Float} (member : c ∈ (labelText number label).toList) :
    c.isDigit = true ∨ c ∈ ['@', '-', '.', 'i', 'n', 'f', 'N', 'a'] := by
  rw [toList_labelText, List.mem_append] at member
  rcases member with digit | weight
  · exact .inl (Text.isDigit_of_mem_natDigits digit)
  · split at weight
    · rcases List.mem_cons.1 weight with rfl | weight
      · exact .inr (List.mem_cons_self ..)
      · exact (Decimal.mem_plainChars weight).imp_right (List.mem_cons_of_mem _)
    · cases weight

theorem mem_edgeText {c : Char} {u : Nat} {e : Edge} (member : c ∈ (edgeText number u e).toList) :
    c.isDigit = true ∨ c ∈ marks := by
  rw [toList_edgeText] at member
  simp only [List.mem_append] at member
  have arrows : ['-', '>'] ⊆ marks := by decide
  have colons : [':'] ⊆ marks := by decide
  have commas : [','] ⊆ marks := by decide
  have weights : ['@', '-', '.', 'i', 'n', 'f', 'N', 'a'] ⊆ marks := by decide
  rcases member with (source | arrow) | (target | colon) | labels
  · exact .inl (Text.isDigit_of_mem_natDigits source)
  · exact .inr (arrows arrow)
  · exact .inl (Text.isDigit_of_mem_natDigits target)
  · exact .inr (colons colon)
  · rcases Text.mem_intercalate labels with comma | ⟨piece, isPiece, member⟩
    · exact .inr (commas comma)
    · obtain ⟨label, -, rfl⟩ := List.mem_map.1 isPiece
      exact (mem_labelText member).imp_right (weights ·)

end GraphStore

/-! ### Edges -/

/-- The pieces of a field between separators, without empty ones. -/
def filledPieces (sep : Char) (s : List Char) : List (List Char) :=
  (Text.splitAt sep s).filter fun piece => !piece.isEmpty

/-- A feature of a table is written as a number that fits in a word, under which the reader finds its name. -/
def FeatureNames.Finds (names : FeatureNames) (number : Nat → Nat) (t : FeatureTable) (f : Nat) : Prop :=
  number f < Text.wordLimit ∧
    ∃ name, t.name? f = some name ∧ LearningGraph.nameOf names (number f) = .ok name

/-- The table itself gives the names of its features under their numbers. -/
theorem FeatureTable.finds {t : FeatureTable} {f : Nat} (named : (t.name? f).isSome) (positive : 1 ≤ f)
    (below : f < Numbers.limit) : (FeatureNames.table (some t)).Finds id t f := by
  obtain ⟨name, isName⟩ := Option.isSome_iff_exists.1 named
  refine ⟨Nat.lt_trans below (by decide), name, isName, ?_⟩
  have outside : ¬(f = 0 ∨ Numbers.limit ≤ f) := by omega
  simp only [LearningGraph.nameOf, id, if_neg outside, Option.bind_some, isName]

/-- An edge leads to a node, and the names of its features are found. -/
structure Edge.Valid (e : Edge) (names : FeatureNames) (number : Nat → Nat) (t : FeatureTable) (nodes : Nat) :
    Prop where
  target : 1 ≤ e.target ∧ e.target ≤ nodes
  named : ∀ label ∈ e.labels, names.Finds number t label.1

namespace LearningGraph

open GraphStore

variable {names : FeatureNames} {number : Nat → Nat} {t : FeatureTable} {l : LocalFeatures} {nodes : Nat}

/-- The number of a label stands in front of its mark. -/
private theorem cutAt_labelText (number : Nat → Nat) (label : Nat × Float) :
    cutAt ['@'] (labelText number label).toList =
      if label.2 != 1 then some (Decimal.natDigits (number label.1), Decimal.plainChars label.2) else none := by
  have noMark : '@' ∉ Decimal.natDigits (number label.1) := Text.not_mem_natDigits (by decide) _
  rw [toList_labelText]
  split
  · rw [← cutAt_append noMark, List.append_assoc]
    rfl
  · rw [List.append_nil, cutAt_of_not_mem noMark]

/-- A label reads back. -/
theorem parseLabel?_labelText (lawful : l.Lawful) {label : Nat × Float} (found : names.Finds number t label.1) :
    ∃ label' l', parseLabel? names l (labelText number label).toList = .ok (label', l') ∧
      l'.Lawful ∧ l.Extends l' ∧ l'.Reads t label label' := by
  obtain ⟨fits, name, named, nameOf_eq⟩ := found
  obtain ⟨lawful', more, met⟩ := LocalFeatures.number_spec lawful name
  refine ⟨((l.number name).1, label.2), (l.number name).2, ?_, lawful', more, ⟨name, named, met⟩, rfl⟩
  have count : Text.readCount? (Decimal.natDigits (number label.1)) = some (number label.1) := by
    rw [Text.readCount?_natDigits, if_pos fits]
  unfold parseLabel?
  rw [cutAt_labelText]
  cases weighted : label.2 != 1 with
  | true =>
    simp only [if_true, Decimal.readChars?_plainChars, pure_bind, count, nameOf_eq]
    rfl
  | false =>
    have one : label.2 = 1 := Decimal.eq_one_of_bne weighted
    have text : (labelText number label).toList = Decimal.natDigits (number label.1) := by
      rw [toList_labelText, weighted]
      exact List.append_nil _
    simp only [text, one, Bool.false_eq_true, if_false, pure_bind, count, nameOf_eq]
    rfl

/-- Labels read back. -/
theorem parseLabels?_labelText {labels : List (Nat × Float)}
    (named : ∀ label ∈ labels, names.Finds number t label.1) (lawful : l.Lawful) :
    ∃ labels' l', parseLabels? names l (labels.map fun label => (labelText number label).toList) =
        .ok (labels', l') ∧
      l'.Lawful ∧ l.Extends l' ∧ List.Forall₂ (l'.Reads t) labels labels' := by
  induction labels generalizing l with
  | nil => exact ⟨[], l, rfl, lawful, .refl l, .nil⟩
  | cons label rest ih =>
    obtain ⟨label', l₁, first, lawful₁, more₁, reads⟩ := parseLabel?_labelText lawful (named label (by simp))
    obtain ⟨labels', l', behind, lawful', more', others⟩ :=
      ih (fun other member => named other (by simp [member])) lawful₁
    refine ⟨label' :: labels', l', ?_, lawful', more₁.trans more', .cons (reads.mono more') others⟩
    rw [List.map_cons, parseLabels?, first]
    change (parseLabels? _ l₁ _ >>= _) = _
    rw [behind]
    rfl

/-- An edge reads back. -/
theorem parseEdge?_edgeText {u : Nat} {e : Edge} (source : 1 ≤ u ∧ u ≤ nodes)
    (valid : e.Valid names number t nodes) (fits : nodes < Text.wordLimit) (lawful : l.Lawful) :
    ∃ e' l', parseEdge? nodes names l (edgeText number u e).toList = .ok ((u, e'), l') ∧
      l'.Lawful ∧ l.Extends l' ∧ l'.Decodes t e e' := by
  obtain ⟨labels', l', reads, lawful', more, labels⟩ := parseLabels?_labelText valid.named lawful
  refine ⟨{ target := e.target, labels := labels' }, l', ?_, lawful', more, rfl, labels⟩
  set written := [','].intercalate (e.labels.map fun label => (labelText number label).toList)
  have arrow : cutAt ['-', '>'] (edgeText number u e).toList =
      some (Decimal.natDigits u, Decimal.natDigits e.target ++ [':'] ++ written) := by
    rw [toList_edgeText]
    exact cutAt_append (Text.not_mem_natDigits (by decide) u) _
  have colon : cutAt [':'] (Decimal.natDigits e.target ++ [':'] ++ written) =
      some (Decimal.natDigits e.target, written) :=
    cutAt_append (Text.not_mem_natDigits (by decide) e.target) _
  have count (n : Nat) (inside : n ≤ nodes) :
      Text.readCount? (Text.trim (Decimal.natDigits n)) = some n := by
    rw [Text.trim_natDigits, Text.readCount?_natDigits, if_pos (Nat.lt_of_le_of_lt inside fits)]
  have inside : ¬(u = 0 ∨ nodes < u ∨ e.target = 0 ∨ nodes < e.target) := by
    have target := valid.target
    omega
  have pieces : (Text.splitAt ',' written).filter (fun label => !label.isEmpty) =
      e.labels.map fun label => (labelText number label).toList := by
    refine Text.filter_splitAt_intercalate (fun piece isPiece member => ?_) fun piece isPiece => ?_
    · obtain ⟨label, -, rfl⟩ := List.mem_map.1 isPiece
      rcases mem_labelText member with digit | mark
      · cases digit
      · revert mark
        decide
    · obtain ⟨label, -, rfl⟩ := List.mem_map.1 isPiece
      rw [toList_labelText]
      exact List.append_ne_nil_of_left_ne_nil Nat.toDigits_ne_nil _
  unfold parseEdge?
  simp only [arrow, colon, count u source.2, count e.target valid.target.2, if_neg inside, pieces, reads]
  rfl

/-- Edges read back. -/
theorem parseEdges?_edgeText {edges : List (Nat × Edge)}
    (valid : ∀ e ∈ edges, (1 ≤ e.1 ∧ e.1 ≤ nodes) ∧ e.2.Valid names number t nodes)
    (fits : nodes < Text.wordLimit) (lawful : l.Lawful) :
    ∃ edges' l', parseEdges? nodes names l
        (edges.map fun e => (edgeText number e.1 e.2).toList) = .ok (edges', l') ∧
      l'.Lawful ∧ l.Extends l' ∧
      List.Forall₂ (fun e e' => e'.1 = e.1 ∧ l'.Decodes t e.2 e'.2) edges edges' := by
  induction edges generalizing l with
  | nil => exact ⟨[], l, rfl, lawful, .refl l, .nil⟩
  | cons e rest ih =>
    obtain ⟨source, isValid⟩ := valid e (by simp)
    obtain ⟨e', l₁, first, lawful₁, more₁, decodes⟩ :=
      parseEdge?_edgeText source isValid fits lawful
    obtain ⟨edges', l', behind, lawful', more', others⟩ :=
      ih (fun other member => valid other (by simp [member])) lawful₁
    refine ⟨(e.1, e') :: edges', l', ?_, lawful', more₁.trans more',
      .cons ⟨rfl, decodes.mono more'⟩ others⟩
    rw [List.map_cons, parseEdges?, first]
    change (parseEdges? nodes _ l₁ _ >>= _) = _
    rw [behind]
    rfl

/-! ### Graphs -/

/-- A count reads back. -/
theorem parseCount?_natDigits {n : Nat} (fits : n < Text.wordLimit) (which : HeaderCount) :
    parseCount? (some (Decimal.natDigits n)) which = .ok n := by
  simp only [parseCount?, Text.trim_natDigits, Text.readCount?_natDigits, if_pos fits]

/-- A count that has been read fits in a word. -/
theorem lt_of_parseCount? {n m : Nat} {which : HeaderCount}
    (read : parseCount? (some (Decimal.natDigits n)) which = .ok m) : n < Text.wordLimit := by
  by_contra outside
  simp only [parseCount?, Text.trim_natDigits, Text.readCount?_natDigits, if_neg outside] at read
  cases read

/-- The names of features and the fields behind them. -/
def splitNames (index : Option FeatureTable) :
    List (List Char) → FeatureNames × List (List Char)
  | [] => (.table index, [])
  | field :: rest =>
    if (cutAt ['-', '>'] field).isSome then (.table index, field :: rest)
    else (.inline ((filledPieces ':' field).map String.ofList).toArray, rest)

/-- The counts are read first, then names and edges are told apart. -/
theorem parse?_eq (fields : List (List Char)) (index : Option FeatureTable) :
    parse? fields index = (do
      let nodes ← parseCount? fields[0]? .nodes
      let edgeCount ← parseCount? fields[1]? .edges
      let dependencies ← parseCount? fields[2]? .dependencies
      let (edges, l) ← parseEdges? nodes (splitNames index (fields.drop 3)).1 .empty
        ((splitNames index (fields.drop 3)).2.filter fun field => !Text.isAllBlank field)
      if edges.length ≠ edgeCount then .error (.edgeCount edgeCount edges.length)
      else return ofEdges nodes edges l.names dependencies) := by
  unfold parse?
  cases fields.drop 3 with
  | nil => rfl
  | cons field rest =>
    cases arrow : (cutAt ['-', '>'] field).isSome <;>
    · simp only [splitNames, arrow]
      rfl

/-- Every edge has an arrow. -/
theorem isSome_cutAt_edgeText (number : Nat → Nat) (u : Nat) (e : Edge) :
    (cutAt ['-', '>'] (edgeText number u e).toList).isSome = true := by
  rw [toList_edgeText]
  refine Option.isSome_iff_exists.2 ⟨_, cutAt_append ?_ _⟩
  exact Text.not_mem_natDigits (by decide) u

/-- Edges that are not behind a list of names have their names in the index. -/
theorem splitNames_edgeText (index : Option FeatureTable) (edges : List (Nat × Edge)) :
    splitNames index (edges.map fun e => (edgeText number e.1 e.2).toList) =
      (.table index, edges.map fun e => (edgeText number e.1 e.2).toList) := by
  cases edges with
  | nil => rfl
  | cons e rest => rw [List.map_cons, splitNames, if_pos (isSome_cutAt_edgeText number e.1 e.2)]

/-- No edge is blank. -/
theorem isAllBlank_edgeText (number : Nat → Nat) (u : Nat) (e : Edge) :
    Text.isAllBlank (edgeText number u e).toList = false := by
  cases digits : Decimal.natDigits u with
  | nil => exact absurd digits Nat.toDigits_ne_nil
  | cons c rest =>
    have digit : c ∈ Decimal.natDigits u := by
      rw [digits]
      exact List.mem_cons_self ..
    rw [toList_edgeText, digits]
    simp only [Text.isAllBlank, List.cons_append, List.all_cons,
      Text.isBlank_of_isDigit (Text.isDigit_of_mem_natDigits digit), Bool.false_and]

/-- The counts of a graph and its edges read back, if the fields behind the counts are told apart into names and
edges. -/
theorem parse?_edgeText {index : Option FeatureTable} {behind : List (List Char)} {edges : List (Nat × Edge)}
    {dependencies : Nat}
    (apart : splitNames index behind = (names, edges.map fun e => (edgeText number e.1 e.2).toList))
    (valid : ∀ e ∈ edges, (1 ≤ e.1 ∧ e.1 ≤ nodes) ∧ e.2.Valid names number t nodes)
    (fits : nodes < Text.wordLimit) (edgesFit : edges.length < Text.wordLimit)
    (dependenciesFit : dependencies < Text.wordLimit) :
    ∃ (edges' : List (Nat × LearningEdge)) (l : LocalFeatures),
      parse? ([nodes, edges.length, dependencies].map Decimal.natDigits ++ behind) index =
        .ok (ofEdges nodes edges' l.names dependencies) ∧
      List.Forall₂ (fun e e' => e'.1 = e.1 ∧ l.Decodes t e.2 e'.2) edges edges' := by
  obtain ⟨edges', l, reads, -, -, decodes⟩ := parseEdges?_edgeText valid fits LocalFeatures.lawful_empty
  refine ⟨edges', l, ?_, decodes⟩
  have all : (edges.map fun e => (edgeText number e.1 e.2).toList).filter
      (fun field => !Text.isAllBlank field) = edges.map fun e => (edgeText number e.1 e.2).toList := by
    rw [List.filter_eq_self]
    intro field member
    obtain ⟨e, -, rfl⟩ := List.mem_map.1 member
    rw [isAllBlank_edgeText]
    rfl
  have length : edges'.length = edges.length := decodes.length_eq.symm
  rw [parse?_eq]
  change (parseCount? (some (Decimal.natDigits nodes)) .nodes >>= fun _ =>
    parseCount? (some (Decimal.natDigits edges.length)) .edges >>= fun _ =>
      parseCount? (some (Decimal.natDigits dependencies)) .dependencies >>= fun _ =>
        parseEdges? _ (splitNames index behind).1 .empty ((splitNames index behind).2.filter _) >>= _) = _
  rw [parseCount?_natDigits fits, parseCount?_natDigits edgesFit, parseCount?_natDigits dependenciesFit, apart]
  change (parseEdges? nodes names .empty (List.filter _ _) >>= _) = _
  rw [all, reads]
  change (if edges'.length ≠ edges.length then _ else _) = _
  rw [if_neg (not_not.2 length)]
  rfl

end LearningGraph

/-! ### Lines -/

/-- The edges of a store with their sources, in the order of the written form. -/
def GraphStore.sourcedEdges (g : GraphStore) : List (Nat × Edge) :=
  g.nodes.flatMap fun u => (g.edges u).map fun e => (u, e)

theorem GraphStore.mem_nodes {g : GraphStore} {u : Nat} : u ∈ g.nodes ↔ 1 ≤ u ∧ u ≤ g.nodeCount := by
  rw [nodes, List.mem_map]
  constructor
  · rintro ⟨i, inside, rfl⟩
    exact ⟨Nat.le_add_left 1 i, List.mem_range.1 inside⟩
  · rintro ⟨positive, inside⟩
    exact ⟨u - 1, List.mem_range.2 (by omega), by omega⟩

theorem GraphStore.mem_sourcedEdges {g : GraphStore} {e : Nat × Edge} :
    e ∈ g.sourcedEdges ↔ e.1 ∈ g.nodes ∧ e.2 ∈ g.edges e.1 := by
  rw [sourcedEdges, List.mem_flatMap]
  constructor
  · rintro ⟨u, node, member⟩
    obtain ⟨edge, isEdge, rfl⟩ := List.mem_map.1 member
    exact ⟨node, isEdge⟩
  · rintro ⟨node, isEdge⟩
    exact ⟨e.1, node, List.mem_map_of_mem isEdge⟩

theorem GraphStore.map_toList_edgeText (g : GraphStore) (number : Nat → Nat) :
    (g.nodes.flatMap fun u => (g.edges u).map (edgeText number u)).map String.toList =
      g.sourcedEdges.map fun e => (edgeText number e.1 e.2).toList := by
  rw [sourcedEdges, List.map_flatMap, List.map_flatMap]
  refine List.flatMap_congr fun u _ => ?_
  rw [List.map_map, List.map_map]
  rfl

namespace TrainingExample

open GraphStore

theorem toList_nodesText (us : List Nat) :
    (GroundedExample.nodesText us).toList = [','].intercalate (us.map Decimal.natDigits) := by
  rw [GroundedExample.nodesText, String.toList_intercalate, List.map_map]
  simp only [Function.comp_def, toList_natText]
  rfl

/-- The nodes of labels read back. -/
theorem parseNodes?_nodesText {nodes : Nat} (fits : nodes < Text.wordLimit) {us : List Nat}
    (inside : ∀ u ∈ us, 1 ≤ u ∧ u ≤ nodes) :
    parseNodes? nodes (GroundedExample.nodesText us).toList = .ok us := by
  have items : (((Text.splitAt ',' (GroundedExample.nodesText us).toList).map Text.trim).filter
      fun item => !item.isEmpty) = us.map Decimal.natDigits := by
    rw [toList_nodesText]
    by_cases some : us = []
    · subst some
      rfl
    · have apart : ∀ piece ∈ us.map Decimal.natDigits, ',' ∉ piece := by
        intro piece isPiece
        obtain ⟨u, -, rfl⟩ := List.mem_map.1 isPiece
        exact Text.not_mem_natDigits (by decide) u
      rw [Text.splitAt_intercalate apart (by simpa using some), List.map_map]
      simp only [Function.comp_def, Text.trim_natDigits]
      rw [List.filter_eq_self]
      intro item isItem
      obtain ⟨u, -, rfl⟩ := List.mem_map.1 isItem
      cases digits : Decimal.natDigits u with
      | nil => exact absurd digits Nat.toDigits_ne_nil
      | cons c rest => rfl
  unfold parseNodes?
  rw [items]
  clear items
  induction us with
  | nil => rfl
  | cons u rest ih =>
    obtain ⟨positive, below⟩ := inside u (by simp)
    have count : Text.readCount? (Decimal.natDigits u) = some u := by
      rw [Text.readCount?_natDigits, if_pos (Nat.lt_of_le_of_lt below fits)]
    have node : ¬(u = 0 ∨ nodes < u) := by omega
    rw [List.map_cons, List.mapM_cons, ih fun other member => inside other (by simp [member])]
    simp only [count, if_neg node]
    rfl

end TrainingExample

/-- A grounded example can be written and read back: its parts are numbers of nodes and features, and its
query stands on one field. -/
structure GroundedExample.Writable (x : GroundedExample) (t : FeatureTable) : Prop where
  query : '\t' ∉ x.labelled.query.text.toList
  labels : ∀ u ∈ x.pos ++ x.neg, 1 ≤ u ∧ u ≤ x.graph.store.nodeCount
  edgeCount : x.graph.store.edgeCount = x.graph.store.sourcedEdges.length
  edges : ∀ e ∈ x.graph.store.sourcedEdges, e.2.Valid (.table (some t)) id t x.graph.store.nodeCount

/-- The counts in the head of a line fit in words. -/
def GraphStore.Fits (g : GraphStore) : Prop :=
  g.nodeCount < Text.wordLimit ∧ g.edgeCount < Text.wordLimit ∧ g.dependencies < Text.wordLimit

namespace TrainingExample

open GraphStore

/-- The fields of a graph: its counts and its edges. -/
def graphFields (g : GraphStore) : List (List Char) :=
  [g.nodeCount, g.edgeCount, g.dependencies].map Decimal.natDigits ++
    g.sourcedEdges.map fun e => (edgeText id e.1 e.2).toList

theorem toList_line (g : GraphStore) (features : FeatureTable) :
    (g.line features false).toList = ['\t'].intercalate (graphFields g) := by
  have number : (fun f => if false = true then ((([] : List Nat).findIdx? (· == f)).map (· + 1)).getD 0
      else f) = (id : Nat → Nat) := rfl
  unfold GraphStore.line
  simp only [Bool.false_eq_true, if_false, String.toList_intercalate, List.append_nil]
  rw [List.map_append, List.map_map]
  refine congrArg₂ (fun sep fields => List.intercalate sep fields) rfl (congrArg₂ (· ++ ·) ?_ ?_)
  · exact List.map_congr_left fun n _ => toList_natText n
  · exact g.map_toList_edgeText id

/-- The fields of a graph are not empty and hold no blanks. -/
theorem mem_graphFields {g : GraphStore} {field : List Char} (member : field ∈ graphFields g) :
    field ≠ [] ∧ ∀ c ∈ field, c.isDigit = true ∨ c ∈ marks := by
  rcases List.mem_append.1 member with count | edge
  · obtain ⟨n, -, rfl⟩ := List.mem_map.1 count
    exact ⟨Nat.toDigits_ne_nil, fun c isIn => .inl (Text.isDigit_of_mem_natDigits isIn)⟩
  · obtain ⟨e, -, rfl⟩ := List.mem_map.1 edge
    refine ⟨fun none => ?_, fun c isIn => mem_edgeText isIn⟩
    rw [toList_edgeText] at none
    simp at none

/-- The fields of a line. -/
theorem splitAt_line {x : GroundedExample} {t : FeatureTable} (writable : x.Writable t) :
    Text.splitAt '\t' (x.line.toList.reverse.dropWhile fun c => c == '\r' || c == '\n').reverse =
      x.labelled.query.text.toList :: (GroundedExample.nodesText x.pos).toList ::
        (GroundedExample.nodesText x.neg).toList :: graphFields x.graph.store := by
  have counts : graphFields x.graph.store ≠ [] := List.cons_ne_nil _ _
  obtain ⟨front, last, ends⟩ := (List.eq_nil_or_concat (graphFields x.graph.store)).resolve_left counts
  rw [List.concat_eq_append] at ends
  -- a character that is neither a digit nor a mark is in none of them
  have apart {c : Char} (digit : c.isDigit = false) (mark : c ∉ marks) {field : List Char}
      (isField : field ∈ graphFields x.graph.store) : c ∉ field := by
    intro member
    rcases (mem_graphFields isField).2 c member with isDigit | isMark
    · rw [digit] at isDigit
      cases isDigit
    · exact mark isMark
  have lines : x.line.toList = ['\t'].intercalate (x.labelled.query.text.toList ::
      (GroundedExample.nodesText x.pos).toList :: (GroundedExample.nodesText x.neg).toList ::
        graphFields x.graph.store) := by
    rw [GroundedExample.line, String.toList_intercalate, ProofGraph.line]
    simp only [List.map_cons, List.map_nil, toList_line]
    rw [List.intercalate_cons_cons, List.intercalate_cons_cons, List.intercalate_cons_cons,
      List.intercalate_singleton, List.intercalate_cons_cons, List.intercalate_cons_cons,
      List.intercalate_cons_of_ne_nil counts]
    rfl
  have isField : last ∈ graphFields x.graph.store := by rw [ends]; simp
  -- no line end is at the end of the last field
  have kept : (x.line.toList.reverse.dropWhile fun c => c == '\r' || c == '\n').reverse =
      x.line.toList := by
    obtain ⟨start, isLine⟩ := Text.exists_intercalate_concat ['\t'] (x.labelled.query.text.toList ::
      (GroundedExample.nodesText x.pos).toList :: (GroundedExample.nodesText x.neg).toList :: front) last
    rw [lines, ends, ← List.cons_append, ← List.cons_append, ← List.cons_append, isLine]
    refine Text.dropWhile_reverse_append start (mem_graphFields isField).1 fun c isIn => ?_
    rw [Bool.or_eq_false_iff, beq_eq_false_iff_ne, beq_eq_false_iff_ne]
    constructor
    · rintro rfl
      exact apart (by decide) (by decide) isField isIn
    · rintro rfl
      exact apart (by decide) (by decide) isField isIn
  rw [kept, lines]
  have nodes (us : List Nat) : '\t' ∉ (GroundedExample.nodesText us).toList := by
    rw [toList_nodesText]
    intro member
    rcases Text.mem_intercalate member with comma | ⟨piece, isPiece, member⟩
    · revert comma
      decide
    · obtain ⟨u, -, rfl⟩ := List.mem_map.1 isPiece
      exact Text.not_mem_natDigits (by decide) u member
  refine Text.splitAt_intercalate (fun field member => ?_) (List.cons_ne_nil _ _)
  rcases List.mem_cons.1 member with rfl | member
  · exact writable.query
  rcases List.mem_cons.1 member with rfl | member
  · exact nodes _
  rcases List.mem_cons.1 member with rfl | member
  · exact nodes _
  · exact apart (by decide) (by decide) member

/-- A line reads back. -/
theorem parse?_line {x : GroundedExample} {t : FeatureTable} (writable : x.Writable t)
    (fits : x.graph.store.Fits) :
    ∃ (edges : List (Nat × LearningEdge)) (l : LocalFeatures),
      parse? x.line (some t) = .ok
        { query := x.labelled.query.text
          graph := .ofEdges x.graph.store.nodeCount edges l.names x.graph.store.dependencies
          seed := [(1, 1)]
          pos := x.pos
          neg := x.neg } ∧
      List.Forall₂ (fun e e' => e'.1 = e.1 ∧ l.Decodes t e.2 e'.2) x.graph.store.sourcedEdges edges := by
  obtain ⟨edges, l, reads, decodes⟩ := LearningGraph.parse?_edgeText
    (LearningGraph.splitNames_edgeText (some t) x.graph.store.sourcedEdges)
    (fun e member => ⟨mem_nodes.1 (mem_sourcedEdges.1 member).1, writable.edges e member⟩) fits.1
    (writable.edgeCount ▸ fits.2.1) fits.2.2
  refine ⟨edges, l, ?_, decodes⟩
  have pos := parseNodes?_nodesText fits.1 fun u member =>
    writable.labels u (List.mem_append_left _ member)
  have neg := parseNodes?_nodesText fits.1 fun u member =>
    writable.labels u (List.mem_append_right _ member)
  -- the fields in front of the graph are the query and the nodes of the labels
  have fields : ofFields? (some t) (x.labelled.query.text.toList ::
      (GroundedExample.nodesText x.pos).toList :: (GroundedExample.nodesText x.neg).toList ::
        graphFields x.graph.store) = .ok
      { query := x.labelled.query.text
        graph := .ofEdges x.graph.store.nodeCount edges l.names x.graph.store.dependencies
        seed := [(1, 1)]
        pos := x.pos
        neg := x.neg } := by
    rw [graphFields, writable.edgeCount]
    change (LearningGraph.parse? ([x.graph.store.nodeCount, x.graph.store.sourcedEdges.length,
      x.graph.store.dependencies].map Decimal.natDigits ++
        x.graph.store.sourcedEdges.map fun e => (edgeText id e.1 e.2).toList) (some t) >>= _) = _
    rw [reads]
    change (parseNodes? x.graph.store.nodeCount _ >>= _) = _
    rw [pos]
    change (parseNodes? x.graph.store.nodeCount _ >>= _) = _
    rw [neg]
    change Except.ok _ = _
    rw [String.ofList_toList]
  unfold parse?
  simp only [splitAt_line writable, fields]

/-- A line that reads back has counts that fit in words. -/
theorem fits_of_parse? {x : GroundedExample} {t : FeatureTable} (writable : x.Writable t)
    {e : TrainingExample} (parsed : parse? x.line (some t) = .ok e) : x.graph.store.Fits := by
  unfold parse? at parsed
  simp only [splitAt_line writable] at parsed
  split at parsed
  · rename_i e' read
    obtain ⟨graph, isGraph, -⟩ := Except.bind_eq_ok.1 read
    unfold LearningGraph.parse? at isGraph
    obtain ⟨nodes, nodesRead, isGraph⟩ := Except.bind_eq_ok.1 isGraph
    obtain ⟨edges, edgesRead, isGraph⟩ := Except.bind_eq_ok.1 isGraph
    obtain ⟨dependencies, dependenciesRead, -⟩ := Except.bind_eq_ok.1 isGraph
    exact ⟨LearningGraph.lt_of_parseCount? nodesRead, LearningGraph.lt_of_parseCount? edgesRead,
      LearningGraph.lt_of_parseCount? dependenciesRead⟩
  · cases parsed

end TrainingExample

end ProofWalk
