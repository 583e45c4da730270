import ProofWalk.Proofs.Grounding.Index
import ProofWalk.Proofs.ProofGraph.Calls

/-!
# Lines with their own names

A line can carry the names of its features. They stand between the counts and the edges, in the order of their
numbers in the table of the run and with colons between them, and the edges refer to a name by its place. The
reader takes the field for names if it holds no arrow, cuts it at its colons and drops what is empty. So the line
tells the graph as long as the names are filled and hold no colon, no tab and no arrow. Constants of rules and of
facts go into names as they are, and nothing keeps them from holding these.

## Main definitions

* `Inlinable` — a name that can stand in such a list
* `GraphStore.used`, `GraphStore.place` — the features of a graph, and their places

## Main results

* `GraphStore.finds_place` — the name at the place of a feature is its name
* `ProofGraph.Coherent.parse?_inline` — the line of a graph tells the graph
* `ProofGraph.inline_retells` — so does the line of a new graph after any calls
-/

namespace ProofWalk

/-- A name that can stand in a list between colons, on a field of a line, and that is not taken for an edge. -/
structure Inlinable (name : String) : Prop where
  filled : name.toList ≠ []
  colon : ':' ∉ name.toList
  tab : '\t' ∉ name.toList
  arrow : ¬['-', '>'] <:+: name.toList

namespace GraphStore

/-! ### Places of features -/

/-- Repetitions in a sorted list stand side by side, so keeping the last of each run keeps everything once. -/
theorem once_spec {all : List Nat} (sorted : all.Pairwise (· ≤ ·)) :
    let once := all.foldr (fun f seen => if seen.head? = some f then seen else f :: seen) []
    once.Pairwise (· < ·) ∧ ∀ f, f ∈ once ↔ f ∈ all := by
  induction all with
  | nil => exact ⟨.nil, fun f => Iff.rfl⟩
  | cons first rest ih =>
    obtain ⟨least, sorted⟩ := List.pairwise_cons.1 sorted
    obtain ⟨strict, same⟩ := ih sorted
    rw [List.foldr_cons]
    generalize rest.foldr _ [] = once at strict same
    split
    · rename_i again
      refine ⟨strict, fun f => ?_⟩
      rw [same, List.mem_cons, or_iff_right_of_imp]
      rintro rfl
      exact (same f).1 (List.mem_of_head? again)
    · rename_i new
      refine ⟨List.pairwise_cons.2 ⟨fun f member => ?_, strict⟩, fun f => by
        rw [List.mem_cons, same, List.mem_cons]⟩
      refine lt_of_le_of_ne (least f ((same f).1 member)) fun isFirst => new ?_
      -- a repetition would stand at the head, where nothing less comes before it
      cases once with
      | nil => cases member
      | cons head behind =>
        have above : first ≤ head := least head ((same head).1 List.mem_cons_self)
        have below : head ≤ f := (List.mem_cons.1 member).elim (fun isHead => isHead.ge) fun later =>
          (List.rel_of_pairwise_cons strict later).le
        rw [List.head?_cons, le_antisymm (isFirst ▸ below) above]

/-- The features on edges are listed in order and once each. -/
theorem featuresOf_spec (edges : List Edge) :
    (featuresOf edges).Pairwise (· < ·) ∧
      ∀ f, f ∈ featuresOf edges ↔ ∃ e ∈ edges, ∃ label ∈ e.labels, label.1 = f := by
  have sorted : ((edges.flatMap fun e => e.labels.map (·.1)).mergeSort).Pairwise (· ≤ ·) := by
    refine (List.pairwise_mergeSort (fun a b c => ?_) (fun a b => ?_) _).imp of_decide_eq_true
    · simpa using le_trans
    · simpa using le_total a b
  obtain ⟨strict, same⟩ := once_spec sorted
  refine ⟨strict, fun f => (same f).trans ?_⟩
  rw [List.mem_mergeSort, List.mem_flatMap]
  simp only [List.mem_map]

/-- The features on the edges of a graph, in order. -/
def used (g : GraphStore) : List Nat := featuresOf (g.nodes.flatMap g.edges)

/-- The place of a feature among them, from one on; a feature that is not used has none. -/
def place (g : GraphStore) (f : Nat) : Nat := ((g.used.findIdx? (· == f)).map (· + 1)).getD 0

/-- The names of the features of a graph. -/
def usedNames (g : GraphStore) (t : FeatureTable) : List String := g.used.map fun f => (t.name? f).getD ""

theorem mem_used {g : GraphStore} {f : Nat} :
    f ∈ g.used ↔ ∃ e ∈ g.sourcedEdges, ∃ label ∈ e.2.labels, label.1 = f := by
  rw [used, (featuresOf_spec _).2]
  constructor
  · rintro ⟨e, member, label⟩
    obtain ⟨u, node, isEdge⟩ := List.mem_flatMap.1 member
    exact ⟨(u, e), mem_sourcedEdges.2 ⟨node, isEdge⟩, label⟩
  · rintro ⟨e, member, label⟩
    obtain ⟨node, isEdge⟩ := mem_sourcedEdges.1 member
    exact ⟨e.2, List.mem_flatMap.2 ⟨e.1, node, isEdge⟩, label⟩

/-- There are no more features than numbers for them. -/
theorem length_used_le {g : GraphStore} (below : ∀ f ∈ g.used, f < Numbers.limit) :
    g.used.length ≤ Numbers.limit := by
  -- distinct numbers below a bound are no more than the bound
  have distinct : g.used.Nodup := (featuresOf_spec _).1.imp Nat.ne_of_lt
  have inside : g.used ⊆ List.range Numbers.limit := fun f member => List.mem_range.2 (below f member)
  simpa using (List.subperm_of_subset distinct inside).length_le

/-- The reader finds the name of a feature at its place. -/
theorem finds_place {g : GraphStore} {t : FeatureTable} (below : ∀ f ∈ g.used, f < Numbers.limit) {f : Nat}
    (member : f ∈ g.used) {name : String} (named : t.name? f = some name) :
    (FeatureNames.inline (g.usedNames t).toArray).Finds g.place t f := by
  obtain ⟨i, found⟩ : ∃ i, g.used.findIdx? (· == f) = some i := by
    rw [← Option.isSome_iff_exists, List.findIdx?_isSome, List.any_eq_true]
    exact ⟨f, member, beq_self_eq_true f⟩
  obtain ⟨inside, isFeature, -⟩ := List.findIdx?_eq_some_iff_getElem.1 found
  have place : g.place f = i + 1 := by
    rw [GraphStore.place, found]
    rfl
  have isName : (g.usedNames t).toArray[i]? = some name := by
    rw [List.getElem?_toArray, usedNames, List.getElem?_map, List.getElem?_eq_getElem inside, Option.map_some,
      eq_of_beq isFeature, named]
    rfl
  refine ⟨?_, name, named, ?_⟩
  · have most := length_used_le below
    have limit : Numbers.limit < Text.wordLimit := by decide
    rw [place]
    omega
  · rw [place]
    simp only [LearningGraph.nameOf, Nat.add_eq_zero_iff, one_ne_zero, and_false, if_false, Nat.add_sub_cancel,
      isName]

/-! ### Fields -/

/-- The field of names. -/
def namesField (g : GraphStore) (t : FeatureTable) : List Char :=
  [':'].intercalate ((g.usedNames t).map String.toList)

/-- The fields of a line with names: the counts, the names and the edges. -/
def inlineFields (g : GraphStore) (t : FeatureTable) : List (List Char) :=
  [g.nodeCount, g.edgeCount, g.dependencies].map Decimal.natDigits ++
    g.namesField t :: g.sourcedEdges.map fun e => (edgeText g.place e.1 e.2).toList

theorem toList_line_inline (g : GraphStore) (t : FeatureTable) :
    (g.line t true).toList = ['\t'].intercalate (g.inlineFields t) := by
  unfold GraphStore.line
  simp only [if_true, String.toList_intercalate]
  rw [List.map_append, List.map_append, List.map_map, List.append_assoc]
  refine congrArg₂ (fun sep fields => List.intercalate sep fields) rfl (congrArg₂ (· ++ ·) ?_ ?_)
  · exact List.map_congr_left fun n _ => toList_natText n
  · change (":".intercalate (g.usedNames t)).toList :: List.map String.toList
      (g.nodes.flatMap fun u => (g.edges u).map (edgeText g.place u)) = _
    rw [String.toList_intercalate, map_toList_edgeText]
    rfl

/-- The line is cut into its fields, for names hold no tab. -/
theorem splitAt_line_inline {g : GraphStore} {t : FeatureTable}
    (names : ∀ name ∈ g.usedNames t, Inlinable name) :
    Text.splitAt '\t' (g.line t true).toList = g.inlineFields t := by
  rw [toList_line_inline]
  refine Text.splitAt_intercalate (fun field member tab => ?_)
    (List.append_ne_nil_of_left_ne_nil (List.cons_ne_nil _ _) _)
  rcases List.mem_append.1 member with count | behind
  · obtain ⟨n, -, rfl⟩ := List.mem_map.1 count
    exact Text.not_mem_natDigits (by decide) n tab
  rcases List.mem_cons.1 behind with rfl | edge
  · rcases Text.mem_intercalate tab with colon | ⟨piece, isName, inside⟩
    · revert colon
      decide
    · obtain ⟨name, member, rfl⟩ := List.mem_map.1 isName
      exact (names name member).tab inside
  · obtain ⟨e, -, rfl⟩ := List.mem_map.1 edge
    rcases mem_edgeText tab with digit | mark
    · cases digit
    · revert mark
      decide

/-- The field of names is taken for names, and read as those that have been written. -/
theorem splitNames_inline {g : GraphStore} {t : FeatureTable} (names : ∀ name ∈ g.usedNames t, Inlinable name)
    (edges : List (List Char)) :
    LearningGraph.splitNames none (g.namesField t :: edges) = (.inline (g.usedNames t).toArray, edges) := by
  -- an arrow between two names would hold the colon, so it lies in one of them
  have noArrow : ¬(cutAt ['-', '>'] (g.namesField t)).isSome = true := by
    rw [isSome_cutAt_iff]
    intro arrow
    obtain ⟨piece, isName, inside⟩ :=
      Text.exists_infix_of_infix_intercalate (List.cons_ne_nil _ _) (by decide) arrow
    obtain ⟨name, member, rfl⟩ := List.mem_map.1 isName
    exact (names name member).arrow inside
  -- nothing is dropped and no name is cut
  have pieces : filledPieces ':' (g.namesField t) = (g.usedNames t).map String.toList := by
    refine Text.filter_splitAt_intercalate (fun piece isName => ?_) fun piece isName => ?_
    · obtain ⟨name, member, rfl⟩ := List.mem_map.1 isName
      exact (names name member).colon
    · obtain ⟨name, member, rfl⟩ := List.mem_map.1 isName
      exact (names name member).filled
  have same : (g.usedNames t).map (String.ofList ∘ String.toList) = g.usedNames t := by
    conv_rhs => rw [← List.map_id (g.usedNames t)]
    exact List.map_congr_left fun name _ => String.ofList_toList
  rw [LearningGraph.splitNames, if_neg noArrow, pieces, List.map_map, same]

/-- A name with a colon is read as two names, and so all names behind it lose their places. -/
example : LearningGraph.splitNames none ["f(a:b):g".toList] = (.inline #["f(a", "b)", "g"], []) := rfl

end GraphStore

/-! ### Graphs -/

/-- A graph that has been read is a proof graph: it has as many nodes and edges, and at every node the same edges
in the same order, to the same nodes and with the same names and weights. All features have names. -/
structure LearningGraph.Tells (read : LearningGraph) (g : ProofGraph) : Prop where
  nodeCount : read.nodeCount = g.store.nodeCount
  edgeCount : read.edgeCount = g.store.edgeCount
  edges : ∀ u ∈ read.nodes, (read.edgesOf u).map read.told = (g.store.edges u).map (Edge.told g.features)
  named : ∀ u, ∀ e ∈ g.store.edges u, ∀ label ∈ e.labels, (g.features.name? label.1).isSome

namespace ProofGraph

/-- The names of the features on the edges of a graph can stand in a list. -/
def Inlines (g : ProofGraph) : Prop :=
  ∀ u, ∀ e ∈ g.store.edges u, ∀ label ∈ e.labels, ∀ name, g.features.name? label.1 = some name → Inlinable name

/-- A line with names tells the graph, if the names can stand in it and counts fit in words. -/
theorem Coherent.parse?_inline {g : ProofGraph} (coherent : g.Coherent) (fits : g.store.Fits)
    (inlines : g.Inlines) :
    ∃ read, LearningGraph.parse? (Text.splitAt '\t' (g.line true).toList) none = .ok read ∧ read.Tells g := by
  obtain ⟨states, holds⟩ := coherent.holds
  have named {u : Nat} {e : Edge} (member : e ∈ g.store.edges u) {label : Nat × Float}
      (isLabel : label ∈ e.labels) : ∃ name, g.features.name? label.1 = some name := by
    obtain ⟨name, number⟩ := (coherent.edge member).2 label isLabel
    exact ⟨name, (coherent.lawful.inverse _ _).1 number⟩
  -- a feature that is used is on an edge
  have onEdge {f : Nat} (isUsed : f ∈ g.store.used) :
      ∃ name, g.features.name? f = some name ∧ Inlinable name := by
    obtain ⟨e, member, label, isLabel, rfl⟩ := GraphStore.mem_used.1 isUsed
    obtain ⟨-, isEdge⟩ := GraphStore.mem_sourcedEdges.1 member
    obtain ⟨name, isName⟩ := named isEdge isLabel
    exact ⟨name, isName, inlines e.1 e.2 isEdge label isLabel name isName⟩
  have names : ∀ name ∈ g.store.usedNames g.features, Inlinable name := by
    intro name member
    obtain ⟨f, isUsed, rfl⟩ := List.mem_map.1 member
    obtain ⟨name, isName, inlinable⟩ := onEdge isUsed
    rwa [isName]
  have below : ∀ f ∈ g.store.used, f < Numbers.limit := by
    intro f isUsed
    obtain ⟨name, isName, -⟩ := onEdge isUsed
    exact (coherent.lawful.positive _ _ isName).2
  have valid : ∀ e ∈ g.store.sourcedEdges, (1 ≤ e.1 ∧ e.1 ≤ g.store.nodeCount) ∧
      e.2.Valid (.inline (g.store.usedNames g.features).toArray) g.store.place g.features g.store.nodeCount := by
    intro e member
    obtain ⟨node, isEdge⟩ := GraphStore.mem_sourcedEdges.1 member
    refine ⟨GraphStore.mem_nodes.1 node, (coherent.edge isEdge).1, fun label isLabel => ?_⟩
    obtain ⟨name, isName⟩ := named isEdge isLabel
    exact GraphStore.finds_place below (GraphStore.mem_used.2 ⟨_, member, label, isLabel, rfl⟩) isName
  have counted := holds.length_sourcedEdges
  obtain ⟨edges, l, reads, decodes⟩ := LearningGraph.parse?_edgeText
    (GraphStore.splitNames_inline names _) valid fits.1 (counted ▸ fits.2.1) fits.2.2
  rw [ProofGraph.line, GraphStore.splitAt_line_inline names, GraphStore.inlineFields, counted]
  refine ⟨_, reads, rfl, ?_, fun u node => ?_, fun u e member label isLabel => ?_⟩
  · rw [LearningGraph.edgeCount_ofEdges, ← decodes.length_eq, counted]
  · obtain ⟨positive, inside⟩ : 1 ≤ u ∧ u ≤ g.store.nodeCount := LearningGraph.mem_nodes.1 node
    exact LearningGraph.map_told_of_decodes decodes positive inside
  · obtain ⟨name, isName⟩ := named member isLabel
    rw [isName]
    rfl

/-- Whatever is asked of a new graph, its line with names tells what it then holds, as long as the names can stand
in the line. -/
theorem inline_retells {kind : GraphKind} {labelled : LabelledExample} {program : Program}
    {relations : List Relation} {features : FeatureTable} {g₀ g : ProofGraph} {past : List Asking}
    (lawful : features.Lawful) (made : ProofGraph.new kind labelled program relations features = .ok g₀)
    (calls : Past g₀ past g) (fits : g.store.Fits) (inlines : g.Inlines) :
    ∃ read, LearningGraph.parse? (Text.splitAt '\t' (g.line true).toList) none = .ok read ∧ read.Tells g :=
  (calls.remembers (remembers_new lawful made)).1.coherent.parse?_inline fits inlines

end ProofGraph

end ProofWalk
