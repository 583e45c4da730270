import ProofWalk.Proofs.Relation.Edges
import ProofWalk.Proofs.Relation.Facts
import ProofWalk.Relation.Basic

/-!
# Look-ups as scans

Tables are indexed, and what they answer could be found without an index: by going through all that was
added to them, in the order in which it was added. Only an edge table that is asked without a source
rearranges its answer.

## Main definitions

* `Matches` — a tuple has the bound arguments of a call at their places
* `FactTable.ofFacts`, `EdgeTable.ofEdges` — tables as they are filled

## Main results

* `agrees_iff_matches` — what is compared when a row is looked at
* `Relation.lookup_scans` — what the tables answer
-/

namespace ProofWalk

variable {values : List String} {args : CallArgs}

/-- A tuple matches a call: it is as long, and it has the bound arguments at their places. -/
def Matches (values : List String) (args : CallArgs) : Prop :=
  values.length = args.length ∧
    ∀ (i : Nat) (c : String), args[i]? = some (some c) → values[i]? = some c

theorem agrees_iff_matches : agrees values args ↔ Matches values args := by
  constructor
  · exact fun agree =>
      ⟨length_eq_of_agrees agree, fun i c => IndexedRows.getElem?_of_agrees agree⟩
  · rintro ⟨length, places⟩
    induction args generalizing values with
    | nil =>
      rw [List.length_eq_zero_iff.1 length]
      rfl
    | cons a rest ih =>
      obtain ⟨v, values, rfl⟩ := List.exists_cons_of_length_eq_add_one length
      have others := ih (Nat.succ.inj length) fun i c => places (i + 1) c
      refine Bool.and_eq_true_iff.2 ⟨?_, others⟩
      cases a with
      | none => rfl
      | some c =>
        have first : some v = some c := places 0 c rfl
        exact beq_iff_eq.2 (Option.some.inj first).symm

instance : Decidable (Matches values args) := decidable_of_iff _ agrees_iff_matches

/-! ### Filled tables -/

/-- The table of facts that are added one after the other. -/
def FactTable.ofFacts (name : String) (facts : List Fact) : FactTable :=
  facts.foldl (fun t f => t.add f.functor f.args f.weight) (empty name)

/-- The table of edges that are added one after the other. -/
def EdgeTable.ofEdges (name : String) (edges : List LabelledEdge) : EdgeTable :=
  edges.foldl (fun t e => t.add e.label e.source e.target e.weight) (empty name)

namespace FactTable

theorem Stores.foldl_add {t : FactTable} {before : List Fact} (stores : t.Stores before)
    (facts : List Fact) :
    (facts.foldl (fun t f => t.add f.functor f.args f.weight) t).Stores (before ++ facts) ∧
      (facts.foldl (fun t f => t.add f.functor f.args f.weight) t).feature = t.feature := by
  induction facts generalizing t before with
  | nil => exact ⟨by rwa [List.append_nil], rfl⟩
  | cons f rest ih =>
    obtain ⟨holds, feature⟩ := ih (stores.add f.functor f.args f.weight)
    refine ⟨?_, feature⟩
    rwa [List.append_assoc] at holds

theorem stores_ofFacts (name : String) (facts : List Fact) :
    (ofFacts name facts).Stores facts ∧ (ofFacts name facts).feature = tableFeature name :=
  (stores_empty name).foldl_add facts

/-- Leaving out the tables that do not claim a predicate leaves no row out. -/
theorem flatMap_lookup (parts : List FactTable) (label : String) (args : CallArgs) :
    ((parts.filter (·.claims label)).flatMap fun t => t.lookup label args) =
      parts.flatMap fun t => t.lookup label args := by
  induction parts with
  | nil => rfl
  | cons t rest ih =>
    rw [List.filter_cons, List.flatMap_cons, ← ih]
    split
    · rw [List.flatMap_cons]
    · rename_i unclaimed
      rw [claims, Std.HashMap.contains_eq_isSome_getElem?, Option.not_isSome_iff_eq_none] at unclaimed
      rw [lookup, unclaimed, List.nil_append]

end FactTable

namespace EdgeTable

theorem Stores.foldl_add {t : EdgeTable} {before : List LabelledEdge} (stores : t.Stores before)
    (edges : List LabelledEdge) :
    (edges.foldl (fun t e => t.add e.label e.source e.target e.weight) t).Stores (before ++ edges) ∧
      (edges.foldl (fun t e => t.add e.label e.source e.target e.weight) t).feature = t.feature := by
  induction edges generalizing t before with
  | nil => exact ⟨by rwa [List.append_nil], rfl⟩
  | cons e rest ih =>
    obtain ⟨holds, feature⟩ := ih (stores.add e)
    refine ⟨?_, feature⟩
    rwa [List.append_assoc] at holds

theorem stores_ofEdges (name : String) (edges : List LabelledEdge) :
    (ofEdges name edges).Stores edges ∧ (ofEdges name edges).feature = tableFeature name :=
  (stores_empty name).foldl_add edges

/-- Edges of one source are not rearranged. -/
theorem GroupedBySource.eq_of_source {edges grouped : List LabelledEdge}
    (isGrouped : GroupedBySource edges grouped) (source : String)
    (same : ∀ e ∈ edges, e.source = source) : grouped = edges := by
  have stable := isGrouped.stable source
  have all (e : LabelledEdge) (member : e ∈ edges) : decide (e.source = source) = true :=
    decide_eq_true (same e member)
  rwa [List.filter_eq_self.2 all,
    List.filter_eq_self.2 fun e member => all e (isGrouped.perm.mem_iff.1 member)] at stable

end EdgeTable

/-! ### Scans -/

/-- The facts of a predicate that match a call. -/
def Fact.scan (facts : List Fact) (functor : String) (arity : Nat) (args : CallArgs) : List Fact :=
  facts.filter fun f => f.functor = functor ∧ f.args.length = arity ∧ Matches f.args args

/-- The edges of a predicate that match a call. Edges are known by binary predicates only. -/
def LabelledEdge.scan (edges : List LabelledEdge) (label : String) (arity : Nat) (args : CallArgs) :
    List LabelledEdge :=
  edges.filter fun e => e.label = label ∧ arity = 2 ∧ Matches [e.source, e.target] args

/-- What tables answer could be found by scanning what was added to them. A fact table answers with the facts
that match, as often as they were added and in that order, each with its own weight. Several tables answer one
after the other. An edge table answers with the edges that match, and if the source is not given they come
grouped by source. -/
theorem Relation.lookup_scans (functor : String) (arity : Nat) (args : CallArgs) :
    (∀ name facts, (FactTable.ofFacts name facts).lookup (predicateLabel functor arity) args =
      (Fact.scan facts functor arity args).map fun f =>
        { values := f.args, features := .single (tableFeature name) f.weight }) ∧
    (∀ parts : List FactTable, (splitFacts parts).lookup (predicateLabel functor arity) args =
      .ok (parts.flatMap fun t => t.lookup (predicateLabel functor arity) args)) ∧
    ∀ name edges, ∃ found, EdgeTable.GroupedBySource (LabelledEdge.scan edges functor arity args) found ∧
      (∀ source, args[0]? = some (some source) → found = LabelledEdge.scan edges functor arity args) ∧
      (EdgeTable.ofEdges name edges).lookup (predicateLabel functor arity) args = found.map fun e =>
        { values := [e.source, e.target], features := .single (tableFeature name) e.weight } := by
  refine ⟨fun name facts => ?_, fun parts => ?_, fun name edges => ?_⟩
  · obtain ⟨stores, feature⟩ := FactTable.stores_ofFacts name facts
    rw [stores.lookup_eq, feature, Fact.scan]
    refine congrArg _ (List.filter_congr fun f _ => ?_)
    simp only [Fact.label, predicateLabel_inj, agrees_iff_matches, and_assoc]
  · exact congrArg Except.ok (FactTable.flatMap_lookup parts _ args)
  · obtain ⟨stores, feature⟩ := EdgeTable.stores_ofEdges name edges
    obtain ⟨found, grouped, rows⟩ := stores.lookup_grouped (predicateLabel functor arity) args
    have scanned : edges.filter (fun e => e.fact.label = predicateLabel functor arity ∧
        agrees e.fact.args args) = LabelledEdge.scan edges functor arity args := by
      refine List.filter_congr fun e _ => ?_
      simp only [Fact.label, predicateLabel_inj, agrees_iff_matches, and_assoc, LabelledEdge.fact,
        List.length_cons, List.length_nil, Nat.zero_add, eq_comm (a := arity)]
    rw [scanned] at grouped
    refine ⟨found, grouped, fun source isBound => ?_, ?_⟩
    · refine grouped.eq_of_source source fun e member => ?_
      obtain ⟨-, -, -, places⟩ := of_decide_eq_true (List.mem_filter.1 member).2
      exact Option.some.inj (places 0 source isBound)
    · rw [rows]
      exact List.map_congr_left fun e _ => by rw [EdgeTable.rowOf, feature]

end ProofWalk
