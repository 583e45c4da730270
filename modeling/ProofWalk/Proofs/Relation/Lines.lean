import ProofWalk.Proofs.FeatureIndex
import ProofWalk.Proofs.Logic.Words
import ProofWalk.Proofs.Relation.Edges
import ProofWalk.Proofs.Relation.Facts
import ProofWalk.Proofs.Results
import ProofWalk.Relation.Basic

/-!
# Rows of relations that have been read

A relation is read line by line, so the constants of its rows stand on one line. The feature of a table is
its name in parentheses, and is legible if the name stands on one line too.

## Main definitions

* `Row.Tidy`, `Relation.Tidy` — rows of constants on one line, with legible features
* `FactTable.Written`, `EdgeTable.Written`, `Relation.Written` — what can be read from texts

## Main results

* `legible_tableFeature` — the feature of a table is legible if its name goes on one line
* `Relation.Written.tidy` — a relation that has been read is tidy
-/

namespace ProofWalk

/-! ### Legible names -/

theorem legible_tableFeature {name : String} (line : Text.OnLine name) : Legible (tableFeature name) := by
  have word : Text.IsWord "db" := ⟨by simp, by simp [Text.isBlank]⟩
  have opened : "db(" = "db" ++ "(" := by decide
  rw [tableFeature, opened]
  exact legible_call word line

/-! ### Lines -/

namespace Text

theorem subset_dropReturn (s : List Char) : dropReturn s ⊆ s := by
  unfold dropReturn
  split
  · rename_i rest reversed
    intro c member
    rw [← List.mem_reverse, reversed]
    exact List.mem_cons_of_mem _ (List.mem_reverse.1 member)
  · exact List.Subset.refl s

theorem exists_subset_of_mem_linesOfPieces {pieces : List (List Char)} {line : List Char}
    (isLine : line ∈ linesOfPieces pieces) : ∃ piece ∈ pieces, line ⊆ piece := by
  induction pieces with
  | nil => cases isLine
  | cons piece rest ih =>
    cases rest with
    | nil =>
      rw [linesOfPieces] at isLine
      split at isLine
      · cases isLine
      · exact ⟨piece, by simp, by rw [List.mem_singleton.1 isLine]; exact List.Subset.refl _⟩
    | cons next rest =>
      rcases List.mem_cons.1 isLine with rfl | behind
      · exact ⟨piece, by simp, subset_dropReturn piece⟩
      · obtain ⟨other, isPiece, inside⟩ := ih behind
        exact ⟨other, List.mem_cons_of_mem _ isPiece, inside⟩

/-- The lines of a text hold no line feeds. -/
theorem not_mem_of_mem_lines {s line : List Char} (isLine : line ∈ lines s) : '\n' ∉ line := by
  obtain ⟨piece, isPiece, inside⟩ := exists_subset_of_mem_linesOfPieces isLine
  exact fun member => not_mem_of_mem_splitAt isPiece (inside member)

/-- The fields of a line stand on that line. -/
theorem onLine_of_mem_fields {sep : Char} {line : List Char} (free : '\n' ∉ line) {field : String}
    (isField : field ∈ fields sep (String.ofList line)) : OnLine field := by
  rw [fields, String.toList_ofList] at isField
  obtain ⟨piece, isPiece, rfl⟩ := List.mem_map.1 isField
  rw [OnLine, String.toList_ofList]
  exact fun member => free (subset_of_mem_splitAt isPiece member)

/-- Reading a table drops the carriage returns at the end of a line. -/
theorem not_mem_dropReturns {line : List Char} (free : '\n' ∉ line) :
    '\n' ∉ (line.reverse.dropWhile (· == '\r')).reverse := by
  intro member
  exact free (List.mem_reverse.1 ((List.dropWhile_sublist _).subset (List.mem_reverse.1 member)))

end Text

/-! ### Rows -/

/-- The constants of a row stand on one line, and its features are legible. -/
structure Row.Tidy (row : Row) : Prop where
  values : ∀ v ∈ row.values, Text.OnLine v
  features : ∀ f ∈ row.features, Legible f.1

/-- The bound arguments of a call stand on one line. -/
def TidyArgs (args : CallArgs) : Prop := ∀ a ∈ args, ∀ c, a = some c → Text.OnLine c

/-- Tidy calls are answered with tidy rows. -/
def Relation.Tidy (r : Relation) : Prop :=
  ∀ label args rows, TidyArgs args → r.lookup label args = .ok rows → ∀ row ∈ rows, row.Tidy

/-- The row of one feature. -/
theorem tidy_row {values : List String} {feature : String} {weight : Float}
    (lines : ∀ v ∈ values, Text.OnLine v) (legible : Legible feature) :
    Row.Tidy { values, features := .single feature weight } := by
  refine ⟨lines, fun f member => ?_⟩
  rw [List.mem_singleton.1 member]
  exact legible

/-! ### Fact tables -/

namespace FactTable

/-- The feature of a table is legible, and its constants stand on one line. -/
structure Tidy (t : FactTable) : Prop where
  feature : Legible t.feature
  facts : ∃ facts, t.Stores facts ∧ ∀ f ∈ facts, ∀ a ∈ f.args, Text.OnLine a

/-- A table that has been read from a text, under a name on one line, and may then have got another
name. -/
def Written (t : FactTable) : Prop :=
  ∃ name text t', Text.OnLine name ∧ parse? name text = .ok t' ∧ t = { t' with name := t.name }

variable {t t' : FactTable}

theorem Tidy.add (tidy : t.Tidy) (functor : String) {args : List String}
    (lines : ∀ a ∈ args, Text.OnLine a) (weight : Float) : (t.add functor args weight).Tidy := by
  obtain ⟨facts, stores, before⟩ := tidy.facts
  refine ⟨tidy.feature, _, stores.add functor args weight, fun f member => ?_⟩
  rcases List.mem_append.1 member with old | new
  · exact before f old
  · rw [List.mem_singleton.1 new]
    exact lines

theorem Tidy.addLine (tidy : t.Tidy) {line : List Char} (free : '\n' ∉ line)
    (added : t.addLine (String.ofList line) = .ok t') : t'.Tidy := by
  have lines : ∀ field ∈ Text.fields '\t' (String.ofList line), Text.OnLine field := fun field isField =>
    Text.onLine_of_mem_fields free isField
  unfold FactTable.addLine at added
  split at added
  · cases added
    exact tidy
  · rename_i functor args fields
    rw [fields] at lines
    split at added
    · split at added
      · cases added
      · rename_i weightText others reversed
        split at added
        · cases added
        · cases added
          refine tidy.add _ (fun a member => lines a (List.mem_cons_of_mem _ ?_)) _
          rw [← List.mem_reverse, reversed]
          exact List.mem_cons_of_mem _ (List.mem_reverse.1 member)
    · cases added
      exact tidy.add _ (fun a member => lines a (List.mem_cons_of_mem _ member)) _

theorem Tidy.addLines (tidy : t.Tidy) {lines : List (Nat × List Char)}
    (free : ∀ line ∈ lines, '\n' ∉ line.2) (added : t.addLines lines = .ok t') : t'.Tidy := by
  induction lines generalizing t with
  | nil =>
    cases added
    exact tidy
  | cons numbered rest ih =>
    have others : ∀ line ∈ rest, '\n' ∉ line.2 := fun line member => free line (by simp [member])
    rw [FactTable.addLines] at added
    split at added
    · exact ih tidy others added
    · split at added
      · rename_i t₁ first
        exact ih (tidy.addLine (Text.not_mem_dropReturns (free numbered (by simp))) first) others added
      · cases added

theorem Written.tidy (written : t.Written) : t.Tidy := by
  obtain ⟨name, text, t', line, parsed, same⟩ := written
  have start : (empty name).Tidy :=
    ⟨legible_tableFeature line, [], stores_empty name, fun f member => by cases member⟩
  obtain ⟨feature, facts, stores, lines⟩ := start.addLines
    (fun item member => Text.not_mem_of_mem_lines (Text.mem_of_mem_numbered member)) parsed
  rw [same]
  exact ⟨feature, facts, ⟨stores.rows, stores.claimed⟩, lines⟩

theorem Tidy.lookup (tidy : t.Tidy) (label : String) (args : CallArgs) :
    ∀ row ∈ t.lookup label args, row.Tidy := by
  obtain ⟨facts, stores, lines⟩ := tidy.facts
  rw [stores.lookup_eq]
  intro row member
  obtain ⟨f, isFact, rfl⟩ := List.mem_map.1 member
  exact tidy_row (lines f (List.mem_of_mem_filter isFact)) tidy.feature

end FactTable

/-! ### Edge tables -/

namespace EdgeTable

/-- The feature of a table is legible, and its constants stand on one line. -/
structure Tidy (t : EdgeTable) : Prop where
  feature : Legible t.feature
  edges : ∃ edges, t.Stores edges ∧ ∀ e ∈ edges, Text.OnLine e.source ∧ Text.OnLine e.target

/-- A table that texts have been read into, under a name on one line. -/
inductive Written : EdgeTable → Prop
  | empty {name : String} (line : Text.OnLine name) : Written (.empty name)
  | extend {t : EdgeTable} (before : Written t) (name text : String) : Written (t.extend? name text).2

variable {t t' : EdgeTable}

theorem Tidy.add (tidy : t.Tidy) (label : String) {source target : String}
    (isSource : Text.OnLine source) (isTarget : Text.OnLine target) (weight : Float) :
    (t.add label source target weight).Tidy := by
  obtain ⟨edges, stores, before⟩ := tidy.edges
  refine ⟨tidy.feature, _, stores.add ⟨label, source, target, weight⟩, fun e member => ?_⟩
  rcases List.mem_append.1 member with old | new
  · exact before e old
  · rw [List.mem_singleton.1 new]
    exact ⟨isSource, isTarget⟩

theorem Tidy.addLine (tidy : t.Tidy) {line : List Char} (free : '\n' ∉ line)
    (added : t.addLine (String.ofList line) = .ok t') : t'.Tidy := by
  have lines : ∀ field ∈ Text.fields '\t' (String.ofList line), Text.OnLine field := fun field isField =>
    Text.onLine_of_mem_fields free isField
  unfold EdgeTable.addLine at added
  split at added
  · rename_i label source target fields
    rw [fields] at lines
    cases added
    exact tidy.add label (lines source (by simp)) (lines target (by simp)) 1
  · rename_i label source target weightText fields
    rw [fields] at lines
    split at added
    · cases added
      exact tidy.add label (lines source (by simp)) (lines target (by simp)) _
    · cases added
  · cases added

theorem Tidy.addLines (tidy : t.Tidy) (name : String) {lines : List (Nat × List Char)}
    (free : ∀ line ∈ lines, '\n' ∉ line.2) : (t.addLines name lines).2.Tidy := by
  induction lines generalizing t with
  | nil => exact tidy
  | cons numbered rest ih =>
    have others : ∀ line ∈ rest, '\n' ∉ line.2 := fun line member => free line (by simp [member])
    rw [EdgeTable.addLines]
    split
    · exact ih tidy others
    · split
      · rename_i t₁ first
        exact ih (tidy.addLine (Text.not_mem_dropReturns (free numbered (by simp))) first) others
      · exact tidy

theorem Written.tidy (written : t.Written) : t.Tidy := by
  induction written with
  | empty line =>
    exact ⟨legible_tableFeature line, [], stores_empty _, fun e member => by cases member⟩
  | extend _ name text ih =>
    exact ih.addLines name fun item member =>
      Text.not_mem_of_mem_lines (Text.mem_of_mem_numbered member)

theorem Tidy.lookup (tidy : t.Tidy) (label : String) (args : CallArgs) :
    ∀ row ∈ t.lookup label args, row.Tidy := by
  obtain ⟨edges, stores, lines⟩ := tidy.edges
  intro row member
  obtain ⟨e, isEdge, rfl⟩ := List.mem_map.1 ((stores.lookup_perm label args).mem_iff.1 member)
  obtain ⟨isSource, isTarget⟩ := lines e (List.mem_of_mem_filter isEdge)
  refine tidy_row (fun v isValue => ?_) tidy.feature
  rcases List.mem_cons.1 isValue with rfl | isValue
  · exact isSource
  · rw [List.mem_singleton.1 isValue]
    exact isTarget

end EdgeTable

/-! ### Relations -/

namespace Relation

/-- The relations that can be read from texts, the builtin filters, and fixed rows that are tidy. -/
inductive Written : Relation → Prop
  | facts {t : FactTable} (written : t.Written) : Written (.facts t)
  | splitFacts {parts : List FactTable} (written : ∀ t ∈ parts, t.Written) : Written (.splitFacts parts)
  | edges {t : EdgeTable} (written : t.Written) : Written (.edges t)
  | filters : Written .filters
  | fixed {label : String} {rows : List Row} (tidy : ∀ row ∈ rows, row.Tidy) : Written (.fixed label rows)

/-- A filter answers with the call itself. -/
theorem tidy_filters : Tidy .filters := by
  intro label args rows tidy found
  unfold lookup at found
  simp only at found
  split at found
  · split at found
    · rename_i values bound
      have lines : ∀ v ∈ values, Text.OnLine v := by
        rw [eq_map_some_of_mapM_id bound] at tidy
        exact fun v member => tidy (some v) (List.mem_map_of_mem member) v rfl
      unfold filterRows at found
      split at found
      · split at found
        · cases found
          intro row member
          cases member
        · cases found
          intro row member
          rw [List.mem_singleton.1 member]
          have word : Text.IsWord builtinFeature := ⟨by simp [builtinFeature], by
            simp [builtinFeature, Text.isBlank]⟩
          exact tidy_row lines word.legible
      · cases found
    · cases found
      intro row member
      cases member
  · cases found
    intro row member
    cases member

/-- A relation that has been read is tidy. -/
theorem Written.tidy {r : Relation} (written : r.Written) : r.Tidy := by
  cases written with
  | facts written =>
    intro label args rows _ found
    cases found
    exact written.tidy.lookup label args
  | splitFacts written =>
    intro label args rows _ found
    cases found
    intro row member
    obtain ⟨t, isPart, inPart⟩ := List.mem_flatMap.1 member
    exact (written t (List.mem_of_mem_filter isPart)).tidy.lookup label args row inPart
  | edges written =>
    intro label args rows _ found
    cases found
    exact written.tidy.lookup label args
  | filters => exact tidy_filters
  | fixed tidy =>
    intro label args rows _ found row member
    cases found
    split at member
    · exact tidy row member
    · cases member

end Relation

end ProofWalk
