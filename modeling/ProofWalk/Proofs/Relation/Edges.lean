import ProofWalk.Proofs.Grouping
import ProofWalk.Proofs.Logic.Labels
import ProofWalk.Proofs.Relation.Facts
import ProofWalk.Relation.EdgeTable

/-!
# What an edge table answers

An edge is a binary fact. An edge table keeps the edges of a label by source, so that a look-up
without a source gives them source by source; it gives each of them as often as it was added.

## Main definitions

* `EdgeTable.Stores` — the facts that an edge table holds
* `EdgeTable.GroupedBySource` — edges in the order of their sources

## Main results

* `EdgeTable.Stores.add` — adding an edge
* `EdgeTable.Stores.lookup_grouped` — what a look-up gives
* `EdgeTable.exists_stores_of_extend?` — a table that is read holds some edges
-/

namespace ProofWalk

/-- A labelled edge. -/
structure LabelledEdge where
  label : String
  source : String
  target : String
  weight : Float

/-- An edge as a fact. -/
def LabelledEdge.fact (e : LabelledEdge) : Fact := ⟨e.label, [e.source, e.target], e.weight⟩

namespace EdgeTable

/-- Where the edges of a predicate lead from a source. -/
def outOf (edges : List LabelledEdge) (label source : String) : List (String × Float) :=
  (edges.filter fun e => e.fact.label = label ∧ e.source = source).map fun e => (e.target, e.weight)

theorem outOf_append_singleton (edges : List LabelledEdge) (e : LabelledEdge) (label source : String) :
    outOf (edges ++ [e]) label source = outOf edges label source ++
      if e.fact.label = label ∧ e.source = source then [(e.target, e.weight)] else [] := by
  unfold outOf
  rw [List.filter_append, List.map_append]
  by_cases here : e.fact.label = label ∧ e.source = source
  · rw [if_pos here]
    simp [here]
  · rw [if_neg here]
    simp [here]

/-- The edges of a predicate by source, none if there are none. -/
def edgesOf (t : EdgeTable) (label : String) : LabelEdges :=
  (t.labels[label]?).getD { bySource := ∅, count := 0 }

/-- The edges that a table holds: where they lead, by predicate and source, where a predicate without
edges is not claimed. -/
structure Stores (t : EdgeTable) (edges : List LabelledEdge) : Prop where
  out : ∀ label source,
    (((t.edgesOf label).bySource[source]?).getD #[]).toList = outOf edges label source
  claimed : ∀ label, t.claims label ↔ ∃ e ∈ edges, e.fact.label = label

variable {t : EdgeTable} {edges : List LabelledEdge}

theorem stores_empty (name : String) : (empty name).Stores [] where
  out label source := by simp [empty, edgesOf, outOf]
  claimed label := by simp [empty, claims]

/-- Adding an edge. -/
theorem Stores.add (stores : t.Stores edges) (e : LabelledEdge) :
    (t.add e.label e.source e.target e.weight).Stores (edges ++ [e]) := by
  constructor
  case out =>
    intro label source
    rw [outOf_append_singleton, ← stores.out]
    have found : (t.add e.label e.source e.target e.weight).edgesOf label =
        if e.fact.label = label then
          { bySource := (t.edgesOf label).bySource.alter e.source fun out =>
              some ((out.getD #[]).push (e.target, e.weight))
            count := (t.edgesOf label).count + 1 }
        else t.edgesOf label := by
      rw [edgesOf, EdgeTable.add, Std.HashMap.getElem?_alter]
      by_cases same : e.fact.label = label
      · subst same
        rw [if_pos rfl]
        exact congrArg (Option.getD · _) (if_pos (beq_self_eq_true _))
      · rw [if_neg same]
        exact congrArg (Option.getD · _) (if_neg (mt beq_iff_eq.1 same))
    rw [found]
    by_cases same : e.fact.label = label
    · rw [if_pos same, Std.HashMap.getElem?_alter]
      by_cases here : e.source = source
      · simp [same, here]
      · simp [here]
    · rw [if_neg same, if_neg fun both => same both.1, List.append_nil]
  case claimed =>
    intro label
    have contains : (t.add e.label e.source e.target e.weight).claims label =
        (e.fact.label == label || t.claims label) := by
      rw [claims, EdgeTable.add, Std.HashMap.contains_alter]
      by_cases same : e.fact.label = label
      · exact (if_pos (beq_iff_eq.2 same)).trans (by simp [same])
      · exact (if_neg (mt beq_iff_eq.1 same)).trans (by rw [beq_false_of_ne same]; rfl)
    rw [contains, Bool.or_eq_true, beq_iff_eq, stores.claimed]
    simp [or_comm, or_and_right, exists_or]

/-- A predicate with edges is binary. -/
theorem Stores.arity_of_claims (stores : t.Stores edges) {g : Goal} (claimed : t.claims g.label) :
    g.arity = 2 := by
  obtain ⟨e, -, same⟩ := (stores.claimed _).1 claimed
  exact (predicateLabel_inj.1 same).2.symm

/-- What a look-up makes of an edge. -/
def rowOf (t : EdgeTable) (e : LabelledEdge) : Row :=
  { values := [e.source, e.target], features := .single t.feature e.weight }

theorem Stores.rowsFrom_eq (stores : t.Stores edges) (label source : String)
    (target : Option String) :
    t.rowsFrom (t.edgesOf label) target source =
      (edges.filter fun e => e.fact.label = label ∧ e.source = source ∧
        target.all (· == e.target)).map t.rowOf := by
  rw [rowsFrom, stores.out, outOf, List.filter_map, List.map_map, List.filter_filter]
  have same : (edges.filter fun e =>
        ((fun o : String × Float => target.all (· == o.1)) ∘
          fun e : LabelledEdge => (e.target, e.weight)) e &&
          decide (e.fact.label = label ∧ e.source = source)) =
      edges.filter fun e => e.fact.label = label ∧ e.source = source ∧
        target.all (· == e.target) := by
    refine List.filter_congr fun e _ => ?_
    rw [Bool.eq_iff_iff]
    simp only [Function.comp_apply, Bool.and_eq_true, decide_eq_true_eq]
    tauto
  rw [same]
  refine List.map_congr_left fun e member => ?_
  obtain ⟨-, here, -⟩ := of_decide_eq_true (List.mem_filter.1 member).2
  simp [rowOf, here]

/-- The sources of a predicate are different, and those of all its edges. -/
theorem Stores.mem_sources (stores : t.Stores edges) {e : LabelledEdge} (member : e ∈ edges) :
    e.source ∈ sources (t.edgesOf e.fact.label) := by
  rw [sources, List.mem_mergeSort, Std.HashMap.mem_keys]
  by_contra absent
  have none := stores.out e.fact.label e.source
  rw [Std.HashMap.getElem?_eq_none absent] at none
  have some : (e.target, e.weight) ∈ outOf edges e.fact.label e.source :=
    List.mem_map.2 ⟨e, List.mem_filter.2 ⟨member, by simp⟩, rfl⟩
  rw [← none] at some
  cases some

theorem nodup_sources (edges : LabelEdges) : (sources edges).Nodup :=
  (List.mergeSort_perm _ _).nodup_iff.2 Std.HashMap.nodup_keys

/-- The sources come in the order of their names. -/
theorem pairwise_sources (edges : LabelEdges) : (sources edges).Pairwise (· ≤ ·) := by
  refine (List.pairwise_mergeSort (fun a b c first second => ?_) (fun a b => ?_) _).imp of_decide_eq_true
  · exact decide_eq_true (String.le_trans (of_decide_eq_true first) (of_decide_eq_true second))
  · rw [Bool.or_eq_true, decide_eq_true_eq, decide_eq_true_eq]
    exact String.le_total a b

theorem agrees_fact (e : LabelledEdge) (source target : Option String) :
    agrees e.fact.args [source, target] ↔
      source.all (· == e.source) ∧ target.all (· == e.target) := by
  cases source <;> cases target <;> simp [LabelledEdge.fact, agrees]

/-- Edges rearranged by source: the sources come in the order of their names, and the edges of one source
stay in their order. -/
structure GroupedBySource (edges grouped : List LabelledEdge) : Prop where
  perm : grouped.Perm edges
  sorted : grouped.Pairwise fun a b => a.source ≤ b.source
  stable : ∀ source, grouped.filter (fun e => e.source = source) = edges.filter fun e => e.source = source

/-- The edges of one source are grouped as they are. -/
theorem groupedBySource_of_source (source : String) (same : ∀ e ∈ edges, e.source = source) :
    GroupedBySource edges edges where
  perm := .refl _
  sorted := List.pairwise_of_forall_mem_list fun a left b right => by
    have equal : a.source = b.source := (same a left).trans (same b right).symm
    exact equal ▸ String.le_refl a.source
  stable _ := rfl

/-- Edges are grouped by going through all their sources in order. -/
theorem groupedBySource_flatMap {sources : List String} (nodup : sources.Nodup)
    (sorted : sources.Pairwise (· ≤ ·)) (known : ∀ e ∈ edges, e.source ∈ sources) :
    GroupedBySource edges (sources.flatMap fun s => edges.filter fun e => e.source = s) where
  perm := flatMap_filter_perm LabelledEdge.source nodup known
  sorted := by
    refine List.pairwise_flatMap.2 ⟨fun s _ => ?_, sorted.imp fun {s s'} before e left e' right => ?_⟩
    · refine List.pairwise_of_forall_mem_list fun e left e' right => ?_
      have equal : e.source = e'.source := (of_decide_eq_true (List.mem_filter.1 left).2).trans
        (of_decide_eq_true (List.mem_filter.1 right).2).symm
      exact equal ▸ String.le_refl e.source
    · rwa [of_decide_eq_true (List.mem_filter.1 left).2, of_decide_eq_true (List.mem_filter.1 right).2]
  stable := filter_flatMap_key LabelledEdge.source nodup known

/-- A look-up gives the edges of the predicate that agree with the call, grouped by source. With a bound
source they come in the order in which they were added. -/
theorem Stores.lookup_grouped (stores : t.Stores edges) (label : String) (args : CallArgs) :
    ∃ grouped, GroupedBySource
        (edges.filter fun e => e.fact.label = label ∧ agrees e.fact.args args) grouped ∧
      t.lookup label args = grouped.map t.rowOf := by
  unfold lookup
  cases found : t.labels[label]? with
  | none =>
    have unclaimed : (edges.filter fun e => e.fact.label = label ∧ agrees e.fact.args args) = [] := by
      rw [List.filter_eq_nil_iff]
      rintro e member agree
      have claimed := (stores.claimed label).2 ⟨e, member, (of_decide_eq_true agree).1⟩
      rw [claims, Std.HashMap.contains_eq_isSome_getElem?, found] at claimed
      cases claimed
    rw [unclaimed]
    exact ⟨[], ⟨.refl _, .nil, fun _ => rfl⟩, rfl⟩
  | some found' =>
    obtain rfl : t.edgesOf label = found' := by rw [edgesOf, found, Option.getD_some]
    -- a call with another number of arguments agrees with no edge
    by_cases binary : args.length = 2
    · obtain ⟨source, target, rfl⟩ := List.length_eq_two.1 binary
      cases source with
      | some source =>
        have agree : (edges.filter fun e => e.fact.label = label ∧ agrees e.fact.args [some source, target]) =
            edges.filter fun e => e.fact.label = label ∧ e.source = source ∧
              target.all (· == e.target) := by
          refine List.filter_congr fun e _ => ?_
          rw [Bool.eq_iff_iff]
          simp only [decide_eq_true_eq, agrees_fact, Option.all_some, beq_iff_eq, eq_comm (a := source)]
        rw [agree]
        refine ⟨_, groupedBySource_of_source source fun e member => ?_,
          stores.rowsFrom_eq label source target⟩
        exact (of_decide_eq_true (List.mem_filter.1 member).2).2.1
      | none =>
        -- without a source the rows come source by source, in the order of their names
        refine ⟨_, groupedBySource_flatMap (nodup_sources (t.edgesOf label)) (pairwise_sources _) ?_, ?_⟩
        · intro e member
          obtain ⟨inEdges, here⟩ := List.mem_filter.1 member
          rw [← (of_decide_eq_true here).1]
          exact stores.mem_sources inEdges
        · rw [List.map_flatMap]
          refine List.flatMap_congr fun source _ => ?_
          rw [stores.rowsFrom_eq, List.filter_filter]
          refine congrArg _ (List.filter_congr fun e _ => ?_)
          rw [Bool.eq_iff_iff]
          simp only [Bool.and_eq_true, decide_eq_true_eq, agrees_fact, Option.all_none, true_and]
          tauto
    · have absent : (edges.filter fun e => e.fact.label = label ∧ agrees e.fact.args args) = [] := by
        rw [List.filter_eq_nil_iff]
        rintro e - agree
        exact binary (length_eq_of_agrees (of_decide_eq_true agree).2).symm
      rw [absent]
      refine ⟨[], ⟨.refl _, .nil, fun _ => rfl⟩, ?_⟩
      match args, binary with
      | [], _ | [some _], _ | [none], _ | none :: _ :: _ :: _, _ | some _ :: _ :: _ :: _, _ => rfl
      | [_, _], other => exact absurd rfl other

/-- The order apart, a look-up gives the edges of the predicate that agree with the call. -/
theorem Stores.lookup_perm (stores : t.Stores edges) (label : String) (args : CallArgs) :
    (t.lookup label args).Perm
      ((edges.filter fun e => e.fact.label = label ∧ agrees e.fact.args args).map t.rowOf) := by
  obtain ⟨grouped, isGrouped, rows⟩ := stores.lookup_grouped label args
  rw [rows]
  exact isGrouped.perm.map _

/-! ### The written form -/

/-- A line adds at most one edge. -/
theorem Stores.addLine (stores : t.Stores edges) {line : String} {t' : EdgeTable}
    (added : t.addLine line = .ok t') : ∃ edges', t'.Stores edges' := by
  unfold EdgeTable.addLine at added
  split at added
  · rename_i label source target _
    cases added
    exact ⟨_, stores.add ⟨label, source, target, 1⟩⟩
  · rename_i label source target _ _
    split at added <;> cases added
    rename_i weight _
    exact ⟨_, stores.add ⟨label, source, target, weight⟩⟩
  · cases added

theorem Stores.addLines (stores : t.Stores edges) (name : String) (lines : List (Nat × List Char)) :
    ∃ edges', (t.addLines name lines).2.Stores edges' := by
  induction lines generalizing t edges with
  | nil => exact ⟨edges, stores⟩
  | cons numbered rest ih =>
    rw [EdgeTable.addLines]
    split
    · exact ih stores
    · split
      · rename_i t₁ first
        obtain ⟨edges₁, stores₁⟩ := stores.addLine first
        exact ih stores₁
      · exact ⟨edges, stores⟩

/-- A table that is read holds some edges, also when a line is faulty. -/
theorem exists_stores_of_extend? (stores : t.Stores edges) (name text : String) :
    ∃ edges', (t.extend? name text).2.Stores edges' := stores.addLines name _

end EdgeTable

end ProofWalk
