import Mathlib.Data.List.Basic
import ProofWalk.LabelledExample
import ProofWalk.Proofs.Results

/-!
# Characters of what has been read

Reading cuts a text into names. So a query that has been read holds no character that its text did not
hold, apart from parentheses and commas, and a query that stood on one field of a line is written
without the separator of the fields.

## Main results

* `Query.mem_of_parse?` — the characters of a query that has been read
* `LabelledExample.query_of_parse?` — the query of an example is one field
-/

namespace ProofWalk

open Scan

/-! ### Pieces of a text -/

theorem Text.subset_trim (s : List Char) : Text.trim s ⊆ s := by
  intro c member
  rw [Text.trim, Text.trimEnd, List.mem_reverse] at member
  exact (List.dropWhile_sublist _).subset
    (List.mem_reverse.1 ((List.dropWhile_sublist _).subset member))

theorem Text.subset_of_mem_splitAt {sep : Char} {s piece : List Char}
    (isPiece : piece ∈ Text.splitAt sep s) : piece ⊆ s := by
  induction s generalizing piece with
  | nil =>
    rw [List.mem_singleton.1 isPiece]
    exact List.Subset.refl _
  | cons c rest ih =>
    rw [Text.splitAt] at isPiece
    split at isPiece
    · rcases List.mem_cons.1 isPiece with rfl | behind
      · exact List.nil_subset _
      · exact List.subset_cons_of_subset c (ih behind)
    · split at isPiece
      · rw [List.mem_singleton.1 isPiece]
        exact List.cons_subset_cons c (List.nil_subset _)
      · rename_i first others pieces
        rcases List.mem_cons.1 isPiece with rfl | behind
        · exact List.cons_subset_cons c (ih (by rw [pieces]; exact List.mem_cons_self ..))
        · exact List.subset_cons_of_subset c (ih (by rw [pieces]; exact List.mem_cons_of_mem _ behind))

/-- The separator is in none of the pieces. -/
theorem Text.not_mem_of_mem_splitAt {sep : Char} {s piece : List Char}
    (isPiece : piece ∈ Text.splitAt sep s) : sep ∉ piece := by
  induction s generalizing piece with
  | nil =>
    rw [List.mem_singleton.1 isPiece]
    exact List.not_mem_nil
  | cons c rest ih =>
    rw [Text.splitAt] at isPiece
    split at isPiece
    · rcases List.mem_cons.1 isPiece with rfl | behind
      · exact List.not_mem_nil
      · exact ih behind
    · rename_i other
      split at isPiece
      · rw [List.mem_singleton.1 isPiece, List.mem_singleton]
        exact Ne.symm other
      · rename_i first others pieces
        rcases List.mem_cons.1 isPiece with rfl | behind
        · rw [List.mem_cons, not_or]
          exact ⟨Ne.symm other, ih (by rw [pieces]; exact List.mem_cons_self ..)⟩
        · exact ih (by rw [pieces]; exact List.mem_cons_of_mem _ behind)

theorem Scan.subset_of_mem_splitTop {sep : Char} {depth : Int} {s piece : List Char}
    (isPiece : piece ∈ splitTop sep depth s) : piece ⊆ s := by
  induction s generalizing depth piece with
  | nil =>
    rw [List.mem_singleton.1 isPiece]
    exact List.Subset.refl _
  | cons c rest ih =>
    rw [splitTop] at isPiece
    split at isPiece
    · rcases List.mem_cons.1 isPiece with rfl | behind
      · exact List.nil_subset _
      · exact List.subset_cons_of_subset c (ih behind)
    · split at isPiece
      · rw [List.mem_singleton.1 isPiece]
        exact List.cons_subset_cons c (List.nil_subset _)
      · rename_i first others pieces
        rcases List.mem_cons.1 isPiece with rfl | behind
        · exact List.cons_subset_cons c (ih (by rw [pieces]; exact List.mem_cons_self ..))
        · exact List.subset_cons_of_subset c (ih (by rw [pieces]; exact List.mem_cons_of_mem _ behind))

/-- The functor of a goal has characters, and what stands behind it in parentheses goes on one line. -/
theorem Scan.cases_of_goalParts? {s functor : List Char} {inner : Option (List Char)}
    (parts : goalParts? s = some (functor, inner)) :
    functor = (Text.trimStart s).takeWhile isFunctorChar ∧ functor ≠ [] ∧
      ∀ text, inner = some text → '\n' ∉ text ∧
        Text.trim ((Text.trimStart s).dropWhile isFunctorChar) = '(' :: (text ++ [')']) := by
  unfold goalParts? at parts
  simp only at parts
  split at parts
  · cases parts
  rename_i some
  have nonempty : (Text.trimStart s).takeWhile isFunctorChar ≠ [] := mt List.isEmpty_iff.2 some
  split at parts
  · cases parts
    exact ⟨rfl, nonempty, fun text none => by cases none⟩
  · rename_i r behind
    split at parts
    · rename_i reversed ends
      split at parts
      · cases parts
      · rename_i free
        cases parts
        refine ⟨rfl, nonempty, fun text isInner => ?_⟩
        cases isInner
        constructor
        · rw [List.mem_reverse]
          exact fun member => free (List.contains_iff_mem.2 member)
        · rw [behind, ← List.reverse_cons, ← ends, List.reverse_reverse]
    · cases parts
  · cases parts

/-- The parts of a goal are parts of its text. -/
theorem Scan.subset_of_goalParts? {s functor : List Char} {inner : Option (List Char)}
    (parts : goalParts? s = some (functor, inner)) :
    functor ⊆ s ∧ ∀ text, inner = some text → text ⊆ s := by
  obtain ⟨rfl, -, inside⟩ := cases_of_goalParts? parts
  have start : Text.trimStart s ⊆ s := (List.dropWhile_sublist _).subset
  refine ⟨List.Subset.trans (List.takeWhile_sublist _).subset start, fun text isInner c member => ?_⟩
  have trimmed : c ∈ Text.trim ((Text.trimStart s).dropWhile isFunctorChar) := by
    rw [(inside text isInner).2]
    exact List.mem_cons_of_mem _ (List.mem_append_left _ member)
  exact start ((List.dropWhile_sublist _).subset (Text.subset_trim _ trimmed))

/-! ### Reading -/

/-- What is read is good and leaves a good scope behind, if the scope was good before. -/
def Reading.Upholds {α : Type} (isScope : Scope → Prop) (good : α → Prop) (r : Reading α) : Prop :=
  ∀ s a s', isScope s → r s = .ok (a, s') → good a ∧ isScope s'

namespace Reading.Upholds

variable {α β : Type} {isScope : Scope → Prop} {good : α → Prop} {good' : β → Prop}

theorem pure {a : α} (isGood : good a) : Upholds isScope good (Pure.pure a) := by
  intro s a' s' names done
  cases done
  exact ⟨isGood, names⟩

theorem throw (e : Error) : Upholds isScope good (throw e : Reading α) := by
  intro s a s' _ failed
  cases failed

theorem throw_bind (e : Error) (f : β → Reading α) : Upholds isScope good (MonadExcept.throw e >>= f) := by
  intro s a s' _ failed
  cases failed

theorem bind {r : Reading α} {f : α → Reading β} (first : Upholds isScope good r)
    (next : ∀ a, good a → Upholds isScope good' (f a)) : Upholds isScope good' (r >>= f) := by
  intro s b s' names done
  obtain ⟨⟨a, s₁⟩, ran, behind⟩ := Except.bind_eq_ok.1 done
  obtain ⟨isGood, names₁⟩ := first s a s₁ names ran
  exact next a isGood s₁ b s' names₁ behind

theorem mapM {γ : Type} {f : γ → Reading α} {cs : List γ} (each : ∀ c ∈ cs, Upholds isScope good (f c)) :
    Upholds isScope (fun as => ∀ a ∈ as, good a) (cs.mapM f) := by
  induction cs with
  | nil => exact pure fun a member => by cases member
  | cons c rest ih =>
    rw [List.mapM_cons]
    refine (each c (by simp)).bind fun a isGood => ?_
    refine (ih fun other member => each other (by simp [member])).bind fun as areGood => ?_
    refine pure fun other member => ?_
    rcases List.mem_cons.1 member with rfl | member
    · exact isGood
    · exact areGood other member

theorem imp {r : Reading α} {better : α → Prop} (reads : Upholds isScope better r)
    (enough : ∀ a, better a → good a) : Upholds isScope good r := fun s a s' names done =>
  (reads s a s' names done).imp_left (enough a)

/-- What is read in a new scope is good. -/
theorem of_run' {r : Reading α} (reads : Upholds isScope good r) (empty : isScope .empty) {a : α}
    (done : r.run' .empty = .ok a) : good a := by
  obtain ⟨⟨a', s⟩, ran, rfl⟩ := Except.map_eq_ok.1 done
  exact (reads .empty a' s empty ran).1

end Reading.Upholds

section

variable {p : Char → Prop}

/-- All names in a scope are made of some characters. -/
def Scope.Of (p : Char → Prop) (s : Scope) : Prop := ∀ entry ∈ s.named, ∀ c ∈ entry.2.name.toList, p c

/-- What is read is made of some characters, and so are the names in the scope. -/
def Reading.Gives {α : Type} (p : Char → Prop) (good : α → Prop) (r : Reading α) : Prop :=
  Reading.Upholds (Scope.Of p) good r

/-- An argument that has been read is made of the characters of its text. -/
theorem Term.gives_read {text : List Char} (made : ∀ c ∈ text, p c) :
    Reading.Gives p (fun t : Term => ∀ c ∈ t.chars, p c) (Term.read text) := by
  intro s t s' names done
  have name : ∀ c ∈ (String.ofList (Text.trim text)).toList, p c := by
    intro c member
    rw [String.toList_ofList] at member
    exact made c (Text.subset_trim text member)
  unfold Term.read at done
  simp only at done
  split at done
  · cases done
    exact ⟨name, names⟩
  · split at done
    · unfold Scope.resolve at done
      split at done
      · rename_i v found
        cases done
        obtain ⟨front, back, isEntry, -⟩ := List.lookup_eq_some_iff.1 found
        refine ⟨fun c member => names (String.ofList (Text.trim text), v) ?_ c member, names⟩
        rw [isEntry]
        simp
      · cases done
        refine ⟨name, fun entry member => ?_⟩
        rcases List.mem_cons.1 member with rfl | member
        · exact name
        · exact names entry member
    · cases done
      exact ⟨name, names⟩

/-- Arguments that have been read are made of the characters of their text. -/
theorem Goal.gives_readArgs {text inner : List Char} (made : ∀ c ∈ inner, p c) :
    Reading.Gives p (fun args : List Term => ∀ t ∈ args, ∀ c ∈ t.chars, p c)
      (Goal.readArgs text inner) := by
  unfold Goal.readArgs
  split
  · exact .pure fun t member => by cases member
  · refine .mapM fun piece isPiece => ?_
    have read : Reading.Gives p (fun t : Term => ∀ c ∈ t.chars, p c) (Term.read piece) :=
      Term.gives_read fun c member => made c (Text.subset_of_mem_splitAt isPiece member)
    split
    · exact .throw_bind _ _
    · exact read

/-- A goal is made of some characters. -/
def Goal.Of (p : Char → Prop) (g : Goal) : Prop :=
  (∀ c ∈ g.functor.toList, p c) ∧ ∀ t ∈ g.args, ∀ c ∈ t.chars, p c

/-- A goal that has been read is made of the characters of its text. -/
theorem Goal.gives_read {text : List Char} (made : ∀ c ∈ text, p c) :
    Reading.Gives p (Goal.Of p) (Goal.read text) := by
  unfold Goal.read
  split
  · exact .throw _
  rename_i functor inner parts
  obtain ⟨isFunctor, isInner⟩ := subset_of_goalParts? parts
  have name : ∀ c ∈ (String.ofList functor).toList, p c := by
    intro c member
    rw [String.toList_ofList] at member
    exact made c (isFunctor member)
  have finish (args : List Term) (areMade : ∀ t ∈ args, ∀ c ∈ t.chars, p c) :
      Reading.Gives p (Goal.Of p) (pure { functor := String.ofList functor, args }) :=
    .pure ⟨name, areMade⟩
  cases inner with
  | none =>
    have nullary : Reading.Gives p (fun args : List Term => ∀ t ∈ args, ∀ c ∈ t.chars, p c) (pure []) :=
      .pure fun t member => by cases member
    exact nullary.bind finish
  | some inner =>
    exact (Goal.gives_readArgs fun c member => made c (isInner inner rfl member)).bind finish

theorem Goal.gives_readAll {text : List Char} (made : ∀ c ∈ text, p c) :
    Reading.Gives p (fun goals : List Goal => ∀ g ∈ goals, g.Of p) (Goal.readAll text) :=
  .mapM fun _ isPiece => Goal.gives_read fun c member =>
    made c (subset_of_mem_splitTop (List.mem_of_mem_filter isPiece) member)

end

/-! ### Writing -/

theorem Text.mem_joinWith {c : Char} {sep : List Char} {pieces : List (List Char)}
    (member : c ∈ Text.joinWith sep pieces) : c ∈ sep ∨ ∃ piece ∈ pieces, c ∈ piece := by
  induction pieces with
  | nil => cases member
  | cons piece rest ih =>
    cases rest with
    | nil => exact .inr ⟨piece, by simp, member⟩
    | cons next rest =>
      change c ∈ piece ++ sep ++ Text.joinWith sep (next :: rest) at member
      rw [List.mem_append, List.mem_append] at member
      rcases member with (here | between) | behind
      · exact .inr ⟨piece, by simp, here⟩
      · exact .inl between
      · exact (ih behind).imp_right fun ⟨other, isPiece, there⟩ =>
          ⟨other, List.mem_cons_of_mem _ isPiece, there⟩

/-- A goal is written with its characters, parentheses and commas. -/
theorem Goal.mem_chars {p : Char → Prop} {g : Goal} (made : g.Of p) {c : Char} (member : c ∈ g.chars) :
    p c ∨ c ∈ ['(', ',', ')'] := by
  unfold Goal.chars at member
  split at member
  · exact .inl (made.1 c member)
  · simp only [List.append_assoc, List.mem_append, List.cons_append, List.mem_cons] at member
    rcases member with functor | rfl | arguments | close | none
    · exact .inl (made.1 c functor)
    · exact .inr (by decide)
    · rcases Text.mem_joinWith arguments with comma | ⟨piece, isPiece, member⟩
      · rw [List.mem_singleton.1 comma]
        exact .inr (by decide)
      · obtain ⟨t, isArgument, rfl⟩ := List.mem_map.1 isPiece
        exact .inl (made.2 t isArgument c member)
    · rw [close]
      exact .inr (by decide)
    · cases none

/-- A query that has been read holds no characters but those of its text, parentheses and commas. -/
theorem Query.mem_of_parse? {text : String} {q : Query} (parsed : Query.parse? text = .ok q) {c : Char}
    (member : c ∈ q.chars) : c ∈ text.toList ∨ c ∈ ['(', ',', ')'] := by
  unfold Query.parse? at parsed
  obtain ⟨goals, read, parsed⟩ := Except.bind_eq_ok.1 parsed
  obtain ⟨⟨goals', s⟩, ran, rfl⟩ := Except.map_eq_ok.1 read
  obtain ⟨made, -⟩ := Goal.gives_readAll (p := fun c => c ∈ text.toList) (fun _ isIn => isIn) .empty _ _
    (fun entry none => by cases none) ran
  cases goals' with
  | nil => cases parsed
  | cons head body =>
    cases parsed
    rcases Text.mem_joinWith member with comma | ⟨piece, isPiece, member⟩
    · rw [List.mem_singleton.1 comma]
      exact .inr (by decide)
    · obtain ⟨g, isGoal, rfl⟩ := List.mem_map.1 isPiece
      exact Goal.mem_chars (made g isGoal) member

/-- The labels of an example do not change its query. -/
theorem LabelledExample.query_addLabels {line : Nat} {e e' : LabelledExample} {fields : List (List Char)}
    (added : LabelledExample.addLabels line e fields = .ok e') : e'.query = e.query := by
  induction fields generalizing e with
  | nil =>
    cases added
    rfl
  | cons field rest ih =>
    unfold LabelledExample.addLabels at added
    split at added
    · exact ih added
    · obtain ⟨q, -, added⟩ := Except.bind_eq_ok.1 added
      have same := ih added
      exact same
    · obtain ⟨q, -, added⟩ := Except.bind_eq_ok.1 added
      have same := ih added
      exact same
    · cases added

/-- The query of an example that has been read is one field. -/
theorem LabelledExample.query_of_parse? {text : String} {line : Nat} {e : LabelledExample}
    (parsed : LabelledExample.parse? text line = .ok e) : '\t' ∉ e.query.text.toList := by
  unfold LabelledExample.parse? at parsed
  simp only at parsed
  split at parsed
  · cases parsed
  rename_i field labels fields
  split at parsed
  · cases parsed
  obtain ⟨q, read, added⟩ := Except.bind_eq_ok.1 parsed
  rw [query_addLabels added, Query.text, String.toList_ofList]
  intro member
  rcases Query.mem_of_parse? read member with inText | mark
  · rw [String.toList_ofList] at inText
    have isField : field ∈ Text.splitAt '\t' (text.toList.reverse.dropWhile
        fun c => c == '\r' || c == '\n').reverse := by
      rw [fields]
      exact List.mem_cons_self ..
    exact Text.not_mem_of_mem_splitAt isField (Text.subset_trim field inText)
  · revert mark
    decide

end ProofWalk
