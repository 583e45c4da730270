import Mathlib.Data.List.TakeWhile
import ProofWalk.Logic.Parser
import ProofWalk.Proofs.Logic.Characters
import ProofWalk.Proofs.Text.Legible

/-!
# Names in goals that have been read

Whatever a text looks like, a functor that has been read from it is a word without blanks, and an argument
that has been read from it has a legible name: the arguments of a goal stand on one line, and the blanks
around each of them are dropped.

## Main definitions

* `Goal.Neat` — the functor of a goal is a word, and the names of its arguments are legible
* `Rule.goals` — all goals of a rule
* `Goal.Tidy`, `Query.Tidy`, `Rule.Tidy` — functors are words, and constants stand on a line

## Main results

* `Rule.neat_of_parseAll?` — the goals of rules that have been read are neat
* `Query.neat_of_parse?`, `LabelledExample.tidy_of_parse?` — so are those of queries and examples
-/

namespace ProofWalk

open Scan

/-- The name of a constant or a variable. -/
def Term.name : Term → String
  | .constant c => c
  | .var v => v.name

/-- The functor of a goal is a word, and the names of its arguments are legible. -/
structure Goal.Neat (g : Goal) : Prop where
  functor : Text.IsWord g.functor
  args : ∀ t ∈ g.args, Legible t.name

/-- A constant stands on one line. -/
def Term.Tidy : Term → Prop
  | .constant c => Text.OnLine c
  | .var _ => True

/-- The functor of a goal is a word, and its constants stand on one line. -/
structure Goal.Tidy (g : Goal) : Prop where
  functor : Text.IsWord g.functor
  args : ∀ t ∈ g.args, t.Tidy

/-- All goals of a query are tidy. -/
def Query.Tidy (q : Query) : Prop := ∀ g ∈ q.goals, g.Tidy

/-- A feature and the goals that it ranges over. -/
def FeatureTemplate.goals (f : FeatureTemplate) : List Goal := f.goal :: f.findall

/-- The head of a rule, its goals and those of its features. -/
def Rule.goals (r : Rule) : List Goal := r.lhs :: (r.rhs ++ r.features.flatMap FeatureTemplate.goals)

namespace Rule

variable {r : Rule}

theorem lhs_mem_goals (r : Rule) : r.lhs ∈ r.goals := List.mem_cons_self ..

theorem mem_goals_of_mem_rhs {g : Goal} (member : g ∈ r.rhs) : g ∈ r.goals :=
  List.mem_cons_of_mem _ (List.mem_append_left _ member)

theorem mem_goals_of_feature {f : FeatureTemplate} (isFeature : f ∈ r.features) {g : Goal}
    (member : g ∈ f.goals) : g ∈ r.goals :=
  List.mem_cons_of_mem _ (List.mem_append_right _ (List.mem_flatMap.2 ⟨f, isFeature, member⟩))

end Rule

/-- All goals of a rule are tidy. -/
def Rule.Tidy (r : Rule) : Prop := ∀ g ∈ r.goals, g.Tidy

/-- Legible names stand on one line. -/
theorem Goal.Neat.tidy {g : Goal} (neat : g.Neat) : g.Tidy := by
  refine ⟨neat.functor, fun t member => ?_⟩
  have legible := neat.args t member
  cases t with
  | constant c => exact legible.line
  | var v => trivial

/-! ### Lines -/

theorem Term.chars_eq (t : Term) : t.chars = t.name.toList := by cases t <;> rfl

theorem Goal.Neat.line {g : Goal} (neat : g.Neat) : '\n' ∉ g.chars := by
  intro member
  have made : g.Of (· ≠ '\n') := by
    refine ⟨fun c inFunctor => ?_, fun t isArgument c inTerm => ?_⟩
    · rintro rfl
      exact neat.functor.onLine inFunctor
    · rintro rfl
      rw [Term.chars_eq] at inTerm
      exact (neat.args t isArgument).line inTerm
  rcases Goal.mem_chars made member with other | mark
  · exact other rfl
  · revert mark
    decide

theorem Text.line_joinWith {sep : List Char} {pieces : List (List Char)} (free : '\n' ∉ sep)
    (lines : ∀ piece ∈ pieces, '\n' ∉ piece) : '\n' ∉ Text.joinWith sep pieces := by
  intro member
  rcases Text.mem_joinWith member with inSep | ⟨piece, isPiece, inPiece⟩
  · exact free inSep
  · exact lines piece isPiece inPiece

theorem Goal.line_joinWith {sep : List Char} {goals : List Goal} (free : '\n' ∉ sep)
    (neat : ∀ g ∈ goals, g.Neat) : '\n' ∉ Text.joinWith sep (goals.map Goal.chars) := by
  refine Text.line_joinWith free fun piece isPiece => ?_
  obtain ⟨g, isGoal, rfl⟩ := List.mem_map.1 isPiece
  exact (neat g isGoal).line

/-! ### Reading -/

/-- The parts of a goal are a word and a text on one line. -/
theorem Scan.tidy_of_goalParts? {s functor : List Char} {inner : Option (List Char)}
    (parts : goalParts? s = some (functor, inner)) :
    Text.IsWord (String.ofList functor) ∧ ∀ text, inner = some text → '\n' ∉ text := by
  obtain ⟨taken, nonempty, inside⟩ := cases_of_goalParts? parts
  refine ⟨⟨?_, fun c member => ?_⟩, fun text isInner => (inside text isInner).1⟩
  · rwa [String.toList_ofList]
  · rw [String.toList_ofList, taken] at member
    have isFunctor := List.mem_takeWhile_imp member
    simp only [isFunctorChar, Bool.not_eq_true', Bool.or_eq_false_iff] at isFunctor
    exact isFunctor.1.1.1.1.1.1.1

/-- Variables stand in a scope under their names. -/
def Scope.Named (s : Scope) : Prop := ∀ entry ∈ s.named, entry.2.name = entry.1

theorem Scope.named_empty : Scope.empty.Named := fun _ none => by cases none

open Reading (Upholds)

/-- An argument is read under the name that its text gives it. -/
theorem Term.name_read (text : List Char) :
    Upholds Scope.Named (fun t => t.name = String.ofList (Text.trim text)) (Term.read text) := by
  intro s t s' named done
  unfold Term.read at done
  simp only at done
  split at done
  · rename_i anonymous
    cases done
    exact ⟨rfl, named⟩
  · split at done
    · unfold Scope.resolve at done
      split at done
      · rename_i v found
        cases done
        obtain ⟨front, back, isEntry, -⟩ := List.lookup_eq_some_iff.1 found
        exact ⟨named (String.ofList (Text.trim text), v) (by rw [isEntry]; simp), named⟩
      · cases done
        exact ⟨rfl, List.forall_mem_cons.2 ⟨rfl, named⟩⟩
    · cases done
      exact ⟨rfl, named⟩

theorem Goal.neat_readArgs {text inner : List Char} (line : '\n' ∉ inner) :
    Upholds Scope.Named (fun args : List Term => ∀ t ∈ args, Legible t.name)
      (Goal.readArgs text inner) := by
  unfold Goal.readArgs
  split
  · exact .pure fun t member => by cases member
  refine .mapM fun piece isPiece => ?_
  split
  · exact .throw_bind _ _
  · rename_i filled
    simp only [Bool.or_eq_true, not_or, Bool.not_eq_true] at filled
    refine (Term.name_read piece).imp fun t isName => ?_
    rw [isName]
    exact Text.legible_trim (fun member => line (Text.subset_of_mem_splitAt isPiece member)) filled.1.1

/-- A goal that has been read is neat. -/
theorem Goal.neat_read (text : List Char) : Upholds Scope.Named Goal.Neat (Goal.read text) := by
  unfold Goal.read
  split
  · exact .throw _
  rename_i functor inner parts
  obtain ⟨word, line⟩ := tidy_of_goalParts? parts
  have finish (args : List Term) (areLegible : ∀ t ∈ args, Legible t.name) :
      Upholds Scope.Named Goal.Neat (pure { functor := String.ofList functor, args }) :=
    .pure ⟨word, areLegible⟩
  cases inner with
  | none =>
    have nullary : Upholds Scope.Named (fun args : List Term => ∀ t ∈ args, Legible t.name) (pure []) :=
      .pure fun t member => by cases member
    exact nullary.bind finish
  | some inner => exact (Goal.neat_readArgs (line inner rfl)).bind finish

theorem Goal.neat_readAll (text : List Char) :
    Upholds Scope.Named (fun goals : List Goal => ∀ g ∈ goals, g.Neat) (Goal.readAll text) :=
  .mapM fun piece _ => Goal.neat_read piece

theorem FeatureWeight.named_read (clause : List Char) (text : Option (List Char)) :
    Upholds Scope.Named (fun _ => True) (FeatureWeight.read clause text) := by
  unfold FeatureWeight.read
  split
  · exact .pure trivial
  simp only
  split
  · refine (Term.name_read _).bind fun t _ => ?_
    split
    · exact .pure trivial
    · exact .pure trivial
  · split
    · exact .pure trivial
    · exact .throw _

theorem FeatureTemplate.neat_read (clause item findall : List Char) :
    Upholds Scope.Named (fun f : FeatureTemplate => ∀ g ∈ f.goals, g.Neat)
      (FeatureTemplate.read clause item findall) := by
  unfold FeatureTemplate.read
  refine (Goal.neat_read _).bind fun goal isNeat => ?_
  refine (FeatureWeight.named_read clause _).bind fun weight _ => ?_
  refine (Goal.neat_readAll findall).bind fun goals areNeat => ?_
  exact .pure (List.forall_mem_cons.2 ⟨isNeat, areNeat⟩)

theorem FeatureTemplate.neat_readBlock (clause block : List Char) :
    Upholds Scope.Named (fun fs : List FeatureTemplate => ∀ f ∈ fs, ∀ g ∈ f.goals, g.Neat)
      (FeatureTemplate.readBlock clause block) := by
  unfold FeatureTemplate.readBlock
  split
  · refine (FeatureTemplate.neat_read clause _ _).bind fun f areNeat => .pure ?_
    exact List.forall_mem_singleton.2 areNeat
  · exact .mapM fun item _ => FeatureTemplate.neat_read clause item []

/-- The goals of a clause that has been read are neat. -/
theorem Rule.neat_read (clause : List Char) :
    Upholds Scope.Named (fun r : Rule => ∀ g ∈ r.goals, g.Neat) (Rule.read clause) := by
  have clauseOf (head body : List Char) (blocks : List (List Char)) :
      Upholds Scope.Named (fun r : Rule => ∀ g ∈ r.goals, g.Neat) (do
        let lhs ← Goal.read head
        let rhs ← Goal.readAll body
        let features ← blocks.mapM (FeatureTemplate.readBlock clause)
        pure { lhs := lhs, rhs := rhs, features := features.flatten }) := by
    refine (Goal.neat_read _).bind fun lhs isNeat => ?_
    refine (Goal.neat_readAll _).bind fun rhs areNeat => ?_
    refine (Upholds.mapM fun block _ => FeatureTemplate.neat_readBlock clause block).bind
      fun features allNeat => .pure ?_
    refine List.forall_mem_cons.2 ⟨isNeat, List.forall_mem_append.2 ⟨areNeat, fun g member => ?_⟩⟩
    obtain ⟨f, isFeature, inFeature⟩ := List.mem_flatMap.1 member
    obtain ⟨fs, isBlock, inBlock⟩ := List.mem_flatten.1 isFeature
    exact allNeat fs isBlock f inBlock g inFeature
  have cut (parts : List Char × List (List Char)) :
      Upholds Scope.Named (fun _ => True) (pure parts) := .pure trivial
  unfold Rule.read
  dsimp only
  split
  · exact (cut _).bind fun parts _ => clauseOf _ _ _
  · split
    · exact (cut _).bind fun parts _ => clauseOf _ _ _
    · exact .throw_bind _ _

/-- The goals of rules that have been read are neat. -/
theorem Rule.neat_of_parseAll? {source : String} {rules : List Rule}
    (parsed : Rule.parseAll? source = .ok rules) : ∀ r ∈ rules, ∀ g ∈ r.goals, g.Neat := by
  intro r member
  unfold Rule.parseAll? at parsed
  obtain ⟨clause, -, read⟩ := Except.exists_of_mapM parsed member
  exact (Rule.neat_read clause).of_run' Scope.named_empty read

/-- Rules that have been read are tidy. -/
theorem Rule.tidy_of_parseAll? {source : String} {rules : List Rule}
    (parsed : Rule.parseAll? source = .ok rules) : ∀ r ∈ rules, r.Tidy := fun r member g isGoal =>
  (Rule.neat_of_parseAll? parsed r member g isGoal).tidy

/-- The goals of a query that has been read are neat. -/
theorem Query.neat_of_parse? {text : String} {q : Query} (parsed : Query.parse? text = .ok q) :
    ∀ g ∈ q.goals, g.Neat := by
  unfold Query.parse? at parsed
  obtain ⟨goals, read, parsed⟩ := Except.bind_eq_ok.1 parsed
  have areNeat := (Goal.neat_readAll text.toList).of_run' Scope.named_empty read
  cases goals with
  | nil => cases parsed
  | cons head body =>
    cases parsed
    exact areNeat

/-- The query of an example that has been read is tidy. -/
theorem LabelledExample.tidy_of_parse? {text : String} {line : Nat} {e : LabelledExample}
    (parsed : LabelledExample.parse? text line = .ok e) : e.query.Tidy := by
  unfold LabelledExample.parse? at parsed
  simp only at parsed
  split at parsed
  · cases parsed
  split at parsed
  · cases parsed
  obtain ⟨q, read, added⟩ := Except.bind_eq_ok.1 parsed
  rw [query_addLabels added]
  exact fun g member => (Query.neat_of_parse? read g member).tidy

end ProofWalk
