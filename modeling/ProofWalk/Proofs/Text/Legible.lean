import Mathlib.Data.List.Basic
import Mathlib.Data.List.TakeWhile
import ProofWalk.Proofs.Text.Fields
import ProofWalk.Text.Lines

/-!
# Words, lines and legible names

A file that holds one name on each line reads back as it was written if its names are legible: they fill a
line and neither begin nor end with a blank. Words, which hold no blanks at all, are legible.

## Main definitions

* `Text.IsWord`, `Text.OnLine` — words without blanks, and texts on one line
* `Legible` — a name that can be written on a line of its own

## Main results

* `Legible.linesOf_join` — legible names that are written on lines are the lines that are read
* `legible_call` — a word with something on one line in parentheses is legible
-/

namespace ProofWalk

/-! ### Words -/

namespace Text

/-- A word has characters, none of which is a blank. -/
structure IsWord (s : String) : Prop where
  some : s.toList ≠ []
  ink : ∀ c ∈ s.toList, isBlank c = false

/-- A text goes on one line. -/
def OnLine (s : String) : Prop := '\n' ∉ s.toList

theorem IsWord.not_mem {s : String} (word : IsWord s) {c : Char} (blank : isBlank c = true) : c ∉ s.toList := by
  intro member
  rw [word.ink c member] at blank
  cases blank

/-- The line feed is a blank. -/
theorem IsWord.onLine {s : String} (word : IsWord s) : OnLine s := word.not_mem (by decide)

end Text

/-! ### Lines -/

/-- A name that can be written on a line of its own: it does not go past the end of the line, and the
characters at its ends are not blank. -/
structure Legible (name : String) : Prop where
  line : '\n' ∉ name.toList
  first : ∃ c, name.toList.head? = some c ∧ Text.isBlank c = false
  last : ∃ c, name.toList.getLast? = some c ∧ Text.isBlank c = false

namespace Text

theorem dropWhile_of_head? {p : Char → Bool} {s : List Char} {c : Char} (head : s.head? = some c)
    (other : p c = false) : s.dropWhile p = s := by
  cases s with
  | nil => cases head
  | cons d rest =>
    obtain rfl : d = c := Option.some.inj head
    exact List.dropWhile_cons_of_neg (by rw [other]; exact Bool.false_ne_true)

/-- A piece in front of a separator is cut off. -/
theorem splitAt_append_cons {sep : Char} {piece : List Char} (apart : sep ∉ piece) (rest : List Char) :
    splitAt sep (piece ++ sep :: rest) = piece :: splitAt sep rest := by
  induction piece with
  | nil => rw [List.nil_append, splitAt, if_pos rfl]
  | cons c piece ih =>
    rw [List.mem_cons, not_or] at apart
    rw [List.cons_append, splitAt, if_neg (Ne.symm apart.1), ih apart.2]

theorem splitAt_flatMap {sep : Char} {pieces : List (List Char)} (apart : ∀ piece ∈ pieces, sep ∉ piece) :
    splitAt sep (pieces.flatMap fun piece => piece ++ [sep]) = pieces ++ [[]] := by
  induction pieces with
  | nil => rfl
  | cons piece rest ih =>
    rw [List.flatMap_cons, List.append_assoc, List.singleton_append,
      splitAt_append_cons (apart piece (by simp)), ih fun other member => apart other (by simp [member]),
      List.cons_append]

theorem mem_of_mem_numbered {α : Type} {start : Nat} {items : List α} {item : Nat × α}
    (member : item ∈ numbered start items) : item.2 ∈ items := by
  induction items generalizing start with
  | nil => cases member
  | cons first rest ih =>
    rcases List.mem_cons.1 member with rfl | member
    · exact List.mem_cons_self ..
    · exact List.mem_cons_of_mem _ (ih member)

/-- Pieces that end in line feeds are lines. -/
theorem linesOfPieces_append_nil (pieces : List (List Char)) :
    linesOfPieces (pieces ++ [[]]) = pieces.map dropReturn := by
  induction pieces with
  | nil => rfl
  | cons piece rest ih =>
    rw [List.cons_append, List.map_cons, ← ih]
    cases rest <;> rfl

/-- Texts that are written on lines are the lines that are read, if none goes past the end of its line and none ends
in a carriage return. -/
theorem lines_join {written : List String} (line : ∀ s ∈ written, '\n' ∉ s.toList)
    (ends : ∀ s ∈ written, dropReturn s.toList = s.toList) :
    lines (String.join (written.map (· ++ "\n"))).toList = written.map String.toList := by
  have pieces : (String.join (written.map (· ++ "\n"))).toList =
      (written.map String.toList).flatMap fun piece => piece ++ ['\n'] := by
    rw [String.toList_join, List.flatMap_map, List.flatMap_map]
    refine List.flatMap_congr fun s _ => ?_
    rw [String.toList_append]
    rfl
  have apart : ∀ piece ∈ written.map String.toList, '\n' ∉ piece := by
    intro piece member
    obtain ⟨s, isWritten, rfl⟩ := List.mem_map.1 member
    exact line s isWritten
  rw [pieces, lines, splitAt_flatMap apart, linesOfPieces_append_nil, List.map_map]
  exact List.map_congr_left ends

/-- The string form of `lines_join`. -/
theorem linesOf_join {written : List String} (line : ∀ s ∈ written, '\n' ∉ s.toList)
    (ends : ∀ s ∈ written, dropReturn s.toList = s.toList) :
    linesOf (String.join (written.map (· ++ "\n"))) = written := by
  rw [linesOf, lines_join line ends, List.map_map]
  conv_rhs => rw [← List.map_id written]
  exact List.map_congr_left fun s _ => String.ofList_toList

/-- A text keeps its end if its last character is no carriage return. -/
theorem dropReturn_of_getLast? {s : List Char} {c : Char} (last : s.getLast? = some c) (other : c ≠ '\r') :
    dropReturn s = s := by
  rw [← List.head?_reverse] at last
  unfold dropReturn
  split
  · rename_i rest reversed
    rw [reversed, List.head?_cons] at last
    exact absurd (Option.some.inj last).symm other
  · rfl

end Text

namespace Legible

variable {name : String}

/-- Dropping blanks changes nothing at either end. -/
theorem dropWhile_eq (legible : Legible name) {p : Char → Bool}
    (blanks : ∀ c, Text.isBlank c = false → p c = false) : name.toList.dropWhile p = name.toList := by
  obtain ⟨c, isFirst, ink⟩ := legible.first
  exact Text.dropWhile_of_head? isFirst (blanks c ink)

theorem dropWhile_reverse_eq (legible : Legible name) {p : Char → Bool}
    (blanks : ∀ c, Text.isBlank c = false → p c = false) :
    (name.toList.reverse.dropWhile p).reverse = name.toList := by
  obtain ⟨c, isLast, ink⟩ := legible.last
  rw [← List.head?_reverse] at isLast
  rw [Text.dropWhile_of_head? isLast (blanks c ink), List.reverse_reverse]

theorem trim_eq (legible : Legible name) : Text.trim name.toList = name.toList := by
  rw [Text.trim, Text.trimStart, legible.dropWhile_eq fun _ ink => ink, Text.trimEnd,
    legible.dropWhile_reverse_eq fun _ ink => ink]

/-- A carriage return is a blank. -/
theorem dropReturn_eq (legible : Legible name) : Text.dropReturn name.toList = name.toList := by
  obtain ⟨c, isLast, ink⟩ := legible.last
  refine Text.dropReturn_of_getLast? isLast ?_
  rintro rfl
  exact absurd ink (by decide)

theorem ne_empty (legible : Legible name) : name.isEmpty = false := by
  obtain ⟨c, isFirst, -⟩ := legible.first
  rw [Bool.eq_false_iff, Ne, String.isEmpty_iff]
  rintro rfl
  cases isFirst

/-- Legible names with something on one line between them are legible. -/
theorem append {name' sep : String} (legible : Legible name) (free : '\n' ∉ sep.toList)
    (legible' : Legible name') : Legible (name ++ sep ++ name') := by
  obtain ⟨c, isFirst, ink⟩ := legible.first
  obtain ⟨d, isLast, ink'⟩ := legible'.last
  constructor
  · simp only [String.toList_append, List.mem_append, not_or]
    exact ⟨⟨legible.line, free⟩, legible'.line⟩
  · refine ⟨c, ?_, ink⟩
    simp only [String.toList_append, List.append_assoc, List.head?_append, isFirst, Option.some_or]
  · refine ⟨d, ?_, ink'⟩
    simp only [String.toList_append, List.getLast?_append, isLast, Option.some_or]

theorem intercalate {sep : String} (free : '\n' ∉ sep.toList) {names : List String}
    (legible : ∀ n ∈ names, Legible n) (some : names ≠ []) : Legible (sep.intercalate names) := by
  induction names with
  | nil => exact absurd rfl some
  | cons name rest ih =>
    cases rest with
    | nil =>
      rw [String.intercalate_singleton]
      exact legible name (by simp)
    | cons next rest =>
      rw [String.intercalate_cons_cons]
      exact (legible name (by simp)).append free
        (ih (fun n member => legible n (by simp [member])) (List.cons_ne_nil _ _))

/-- Legible names that are written on lines are the lines that are read. -/
theorem lines_join {names : List String} (legible : ∀ n ∈ names, Legible n) :
    Text.lines (String.join (names.map (· ++ "\n"))).toList = names.map String.toList :=
  Text.lines_join (fun n isName => (legible n isName).line) fun n isName => (legible n isName).dropReturn_eq

/-- The string form of `lines_join`. -/
theorem linesOf_join {names : List String} (legible : ∀ n ∈ names, Legible n) :
    Text.linesOf (String.join (names.map (· ++ "\n"))) = names :=
  Text.linesOf_join (fun n isName => (legible n isName).line) fun n isName => (legible n isName).dropReturn_eq

/-- Nor does reading change or skip a legible name. -/
theorem filter_map_trimmed {names : List String} (legible : ∀ n ∈ names, Legible n) :
    (names.map Text.trimmed).filter (fun n => !n.isEmpty) = names := by
  have same : names.map Text.trimmed = names := by
    conv_rhs => rw [← List.map_id names]
    refine List.map_congr_left fun n isName => ?_
    rw [Text.trimmed, (legible n isName).trim_eq, String.ofList_toList, id]
  rw [same, List.filter_eq_self]
  intro n isName
  rw [(legible n isName).ne_empty]
  rfl

end Legible

/-- What blanks are dropped in front of begins with ink, if anything is left. -/
theorem Text.exists_head?_dropWhile {s : List Char} {c : Char} (member : c ∈ s) (ink : isBlank c = false) :
    ∃ d, (s.dropWhile isBlank).head? = some d ∧ isBlank d = false := by
  have first := List.head?_dropWhile_not isBlank s
  cases left : s.dropWhile isBlank with
  | nil =>
    rw [List.dropWhile_eq_nil_iff.1 left c member] at ink
    cases ink
  | cons d rest =>
    rw [left] at first
    exact ⟨d, rfl, first⟩

/-- What is left of a text when blanks are dropped at its ends begins and ends with ink, if anything is
left. -/
theorem Text.ends_trim {s : List Char} (filled : isAllBlank s = false) :
    (∃ c, (trim s).head? = some c ∧ isBlank c = false) ∧
      ∃ c, (trim s).getLast? = some c ∧ isBlank c = false := by
  obtain ⟨c, member, ink⟩ := List.all_eq_false.1 filled
  -- what is left begins with its first ink, and its reverse with its last
  obtain ⟨d, first, ink'⟩ := Text.exists_head?_dropWhile member (Bool.eq_false_iff.2 ink)
  have isFirst := List.mem_of_head? first
  obtain ⟨e, last, ink''⟩ := Text.exists_head?_dropWhile (List.mem_reverse.2 isFirst) ink'
  obtain ⟨rest, whole⟩ : trim s <+: trimStart s := by
    rw [← List.reverse_suffix, trim, trimEnd, List.reverse_reverse]
    exact List.dropWhile_suffix _
  have ends : (trim s).getLast? = some e := by
    rw [trim, trimEnd, List.getLast?_reverse]
    exact last
  have some : trim s ≠ [] := fun none => by
    rw [none] at ends
    cases ends
  have begins : (trim s).head? = .some d := by
    rw [← List.head?_append_of_ne_nil _ some, whole]
    exact first
  exact ⟨⟨d, begins, ink'⟩, e, ends, ink''⟩

/-- What is left of a line when blanks are dropped at its ends is legible, if anything is left. -/
theorem Text.legible_trim {s : List Char} (line : '\n' ∉ s) (filled : isAllBlank s = false) :
    Legible (String.ofList (trim s)) := by
  obtain ⟨first, last⟩ := Text.ends_trim filled
  constructor
  · rw [String.toList_ofList]
    intro member
    exact line ((List.dropWhile_sublist isBlank).subset
      (List.mem_reverse.1 ((List.dropWhile_sublist isBlank).subset (List.mem_reverse.1 member))))
  · rwa [String.toList_ofList]
  · rwa [String.toList_ofList]

/-- A word is legible. -/
theorem Text.IsWord.legible {s : String} (word : IsWord s) : Legible s := by
  refine ⟨word.onLine, ?_, ?_⟩
  · refine ⟨s.toList.head word.some, List.head?_eq_some_head word.some, ?_⟩
    exact word.ink _ (List.head_mem word.some)
  · refine ⟨s.toList.getLast word.some, List.getLast?_eq_some_getLast word.some, ?_⟩
    exact word.ink _ (List.getLast_mem word.some)

/-- So is a word with something on one line behind it in parentheses. -/
theorem legible_call {functor inner : String} (word : Text.IsWord functor) (line : Text.OnLine inner) :
    Legible (functor ++ "(" ++ inner ++ ")") := by
  have chars : (functor ++ "(" ++ inner ++ ")").toList =
      functor.toList ++ ('(' :: inner.toList ++ [')']) := by
    simp only [String.toList_append, List.append_assoc]
    rfl
  refine ⟨?_, ?_, ?_⟩
  · rw [chars]
    simp only [List.mem_append, List.mem_cons, not_or]
    exact ⟨word.onLine, ⟨by decide, line⟩, by decide, List.not_mem_nil⟩
  · refine ⟨functor.toList.head word.some, ?_, word.ink _ (List.head_mem word.some)⟩
    rw [chars, List.head?_append_of_ne_nil _ word.some]
    exact List.head?_eq_some_head word.some
  · refine ⟨')', ?_, by decide⟩
    rw [chars, ← List.append_assoc, List.getLast?_concat]

end ProofWalk
