import ProofWalk.Logic.Parser
import ProofWalk.Proofs.Logic.Characters
import ProofWalk.Proofs.Text.Legible

/-!
# Texts that are cut where nothing is nested

Goals, features and clauses are cut apart by scanners. Each counts the parentheses, or parentheses and braces,
that are open at a character, and cuts only where none are. What such a scanner finds in a text that has been
put together depends on its parts through the depth behind each of them alone.

## Main definitions

* `Text.Padded` — a text with blanks around it
* `Scan.depthBehind`, `Scan.Level` — the depth behind a text in which nothing is cut
* `Scan.Alike` — texts that are cut alike at any depth
* `Scan.Pieces` — the pieces that a text is cut into
* `Scan.Steady` — texts in which no point ends a clause

## Main results

* `Scan.splitTop_joinWith` — pieces are found again where they were put together
* `Scan.breakTop_append`, `Scan.cutAt_arrow` — so are the parts around the first colon, brace or arrow
* `Scan.clauses_lines` — and clauses that stand on lines
-/

namespace ProofWalk

open Text (isBlank isAllBlank trim trimStart trimEnd splitAt joinWith)

/-! ### Blanks -/

/-- A text with blanks around it. -/
def Text.Padded (s t : List Char) : Prop :=
  ∃ front back, t = front ++ s ++ back ∧ (∀ c ∈ front, isBlank c = true) ∧ ∀ c ∈ back, isBlank c = true

namespace Text

/-- A text is what is left of it between blanks. -/
theorem padded_trim (s : List Char) : Padded (trim s) s := by
  refine ⟨s.takeWhile isBlank, ((trimStart s).reverse.takeWhile isBlank).reverse, ?_,
    fun c member => List.mem_takeWhile_imp member,
    fun c member => List.mem_takeWhile_imp (List.mem_reverse.1 member)⟩
  have back : trimStart s = trim s ++ ((trimStart s).reverse.takeWhile isBlank).reverse := by
    rw [trim, trimEnd, ← List.reverse_append, List.takeWhile_append_dropWhile, List.reverse_reverse]
  rw [List.append_assoc, ← back]
  exact List.takeWhile_append_dropWhile.symm

theorem infix_trim (s : List Char) : trim s <:+: s := by
  obtain ⟨front, back, equal, -⟩ := padded_trim s
  exact ⟨front, back, equal.symm⟩

theorem trim_of_isAllBlank {s : List Char} (blank : isAllBlank s = true) : trim s = [] := by
  rw [trim, trimStart, List.dropWhile_eq_nil_iff.2 (List.all_eq_true.1 blank)]
  rfl

theorem trimStart_blanks_append {front : List Char} (blank : ∀ c ∈ front, isBlank c = true)
    (s : List Char) : trimStart (front ++ s) = trimStart s :=
  List.dropWhile_append_of_pos blank

namespace Padded

variable {s t : List Char}

theorem front {front : List Char} (blank : ∀ c ∈ front, isBlank c = true) (s : List Char) :
    Padded s (front ++ s) :=
  ⟨front, [], (List.append_nil _).symm, blank, List.forall_mem_nil _⟩

theorem back {back : List Char} (blank : ∀ c ∈ back, isBlank c = true) (s : List Char) :
    Padded s (s ++ back) :=
  ⟨[], back, rfl, List.forall_mem_nil _, blank⟩

/-- What is left between blanks is a text that begins and ends with ink. -/
theorem trim_eq_self (padded : Padded s t) (first : ∃ c, s.head? = some c ∧ isBlank c = false)
    (last : ∃ c, s.getLast? = some c ∧ isBlank c = false) : trim t = s := by
  obtain ⟨front, back, rfl, before, after⟩ := padded
  obtain ⟨c, isFirst, ink⟩ := first
  obtain ⟨d, isLast, ink'⟩ := last
  have start : trimStart (front ++ s ++ back) = s ++ back := by
    rw [List.append_assoc, trimStart_blanks_append before]
    exact dropWhile_of_head? (by rw [List.head?_append, isFirst, Option.some_or]) ink
  rw [trim, start, trimEnd, List.reverse_append,
    List.dropWhile_append_of_pos fun c member => after c (List.mem_reverse.1 member)]
  rw [← List.head?_reverse] at isLast
  rw [dropWhile_of_head? isLast ink', List.reverse_reverse]

theorem trans {u : List Char} (first : Padded s t) (second : Padded t u) : Padded s u := by
  obtain ⟨front, back, rfl, before, after⟩ := first
  obtain ⟨front', back', rfl, before', after'⟩ := second
  refine ⟨front' ++ front, back ++ back', ?_, fun c member => ?_, fun c member => ?_⟩
  · simp only [List.append_assoc]
  · exact (List.mem_append.1 member).elim (before' c) (before c)
  · exact (List.mem_append.1 member).elim (after c) (after' c)

theorem isAllBlank_eq (padded : Padded s t) : isAllBlank t = isAllBlank s := by
  obtain ⟨front, back, rfl, before, after⟩ := padded
  unfold isAllBlank
  rw [List.all_append, List.all_append, List.all_eq_true.2 before, List.all_eq_true.2 after, Bool.true_and,
    Bool.and_true]

/-- The blanks around a text are dropped with those at its ends. -/
theorem trim_eq (padded : Padded s t) : trim t = trim s := by
  cases blank : isAllBlank s with
  | true => rw [trim_of_isAllBlank blank, trim_of_isAllBlank (padded.isAllBlank_eq.trans blank)]
  | false =>
    obtain ⟨first, last⟩ := ends_trim blank
    exact ((padded_trim s).trans padded).trim_eq_self first last

/-- Pieces with a comma and a blank between them are texts with commas between them that have blanks around
them. -/
theorem exists_joinWith {pieces : List (List Char)} (some : pieces ≠ []) {front back : List Char}
    (before : ∀ c ∈ front, isBlank c = true) (after : ∀ c ∈ back, isBlank c = true) :
    ∃ texts, List.Forall₂ Padded pieces texts ∧
      front ++ joinWith [',', ' '] pieces ++ back = joinWith [','] texts := by
  induction pieces generalizing front with
  | nil => exact absurd rfl some
  | cons piece rest ih =>
    cases rest with
    | nil => exact ⟨[front ++ piece ++ back], .cons ⟨front, back, rfl, before, after⟩ .nil, rfl⟩
    | cons next rest =>
      have blank : ∀ c ∈ [' '], isBlank c = true := List.forall_mem_singleton.2 rfl
      obtain ⟨texts, areTexts, whole⟩ := ih (List.cons_ne_nil _ _) blank
      refine ⟨(front ++ piece) :: texts, .cons (.front before piece) areTexts, ?_⟩
      cases areTexts with
      | cons isText areTexts =>
        change front ++ (piece ++ [',', ' '] ++ joinWith [',', ' '] (next :: rest)) ++ back =
          front ++ piece ++ [','] ++ joinWith [','] _
        rw [← whole]
        simp only [List.append_assoc, List.cons_append, List.nil_append]

end Padded

/-- Blanks are dropped once. -/
theorem trim_trim (s : List Char) : trim (trim s) = trim s := (padded_trim s).trim_eq.symm

/-! ### Texts put together -/

theorem infix_joinWith {sep piece : List Char} {pieces : List (List Char)} (isPiece : piece ∈ pieces) :
    piece <:+: joinWith sep pieces := by
  induction pieces with
  | nil => cases isPiece
  | cons first rest ih =>
    cases rest with
    | nil =>
      rw [List.mem_singleton.1 isPiece]
      exact List.infix_rfl
    | cons next rest =>
      change piece <:+: first ++ sep ++ joinWith sep (next :: rest)
      rcases List.mem_cons.1 isPiece with rfl | later
      · rw [List.append_assoc]
        exact (List.prefix_append _ _).isInfix
      · exact (ih later).trans (List.suffix_append _ _).isInfix

/-- The pieces of a text stand in it. -/
theorem infix_of_mem_splitAt {sep : Char} {s piece : List Char} (isPiece : piece ∈ splitAt sep s) :
    piece <:+: s := by
  have inside := @infix_joinWith [sep] _ _ isPiece
  rwa [joinWith_splitAt] at inside

/-- What is kept when texts are put together with a separator holds of all of them put together. -/
theorem joinWith_induction (P : List Char → Prop) {sep : List Char} (nil : P [])
    (append : ∀ s t, P s → P t → P (s ++ sep ++ t)) {pieces : List (List Char)}
    (all : ∀ piece ∈ pieces, P piece) : P (joinWith sep pieces) := by
  induction pieces with
  | nil => exact nil
  | cons piece rest ih =>
    obtain ⟨first, others⟩ := List.forall_mem_cons.1 all
    cases rest with
    | nil => exact first
    | cons next rest => exact append _ _ first (ih others)

end Text

/-! ### Depth -/

namespace Scan

/-- The depth behind a text that begins at a depth, if no separator stands in it at depth zero. -/
def depthBehind (weigh : Char → Int) (sep : Char) (depth : Int) : List Char → Option Int
  | [] => some depth
  | c :: r => if c = sep ∧ depth = 0 then none else depthBehind weigh sep (depth + weigh c) r

section

variable {weigh : Char → Int} {sep : Char}

theorem depthBehind_append (depth : Int) (s t : List Char) :
    depthBehind weigh sep depth (s ++ t) =
      (depthBehind weigh sep depth s).bind fun depth => depthBehind weigh sep depth t := by
  induction s generalizing depth with
  | nil => rfl
  | cons c r ih =>
    rw [List.cons_append, depthBehind, depthBehind]
    split
    · rfl
    · exact ih _

/-- A text without parentheses, braces and separators leaves the depth as it is. -/
theorem depthBehind_of_flat {s : List Char} (flat : ∀ c ∈ s, weigh c = 0 ∧ c ≠ sep) (depth : Int) :
    depthBehind weigh sep depth s = some depth := by
  induction s with
  | nil => rfl
  | cons c r ih =>
    obtain ⟨⟨zero, other⟩, behind⟩ := List.forall_mem_cons.1 flat
    rw [depthBehind, if_neg fun isSep => other isSep.1, zero, Int.add_zero, ih behind]

/-- Nothing is cut in a text, and the depth behind it is the same. -/
def Level (weigh : Char → Int) (sep : Char) (depth : Int) (s : List Char) : Prop :=
  depthBehind weigh sep depth s = some depth

theorem Level.append {depth : Int} {s t : List Char} (first : Level weigh sep depth s)
    (second : Level weigh sep depth t) : Level weigh sep depth (s ++ t) := by
  rw [Level, depthBehind_append, first]
  exact second

/-- Within parentheses nothing is cut. -/
theorem level_inside {depth : Int} (inside : depth ≠ 0) {s : List Char} (zero : ∀ c ∈ s, weigh c = 0) :
    Level weigh sep depth s := by
  unfold Level
  induction s with
  | nil => rfl
  | cons c r ih =>
    obtain ⟨first, others⟩ := List.forall_mem_cons.1 zero
    rw [depthBehind, if_neg fun isSep => inside isSep.2, first, Int.add_zero, ih others]

end

theorem nesting_of_ne {c : Char} (other : c ∉ ['(', ')', '\x7b', '\x7d']) : nesting c = 0 := by
  simp only [List.mem_cons, not_or] at other
  rw [nesting, if_neg fun isOpen => isOpen.elim other.1 other.2.2.1,
    if_neg fun isClosed => isClosed.elim other.2.1 other.2.2.2.1]

/-- Blanks have no depth and separate nothing. -/
theorem flat_of_isBlank {c : Char} (blank : isBlank c = true) : nesting c = 0 ∧ c ≠ ',' := by
  have ink (d : Char) (ink : isBlank d = false) : c ≠ d := by
    rintro rfl
    rw [blank] at ink
    cases ink
  refine ⟨nesting_of_ne fun member => ?_, ink ',' (by decide)⟩
  revert member
  simp only [List.mem_cons, List.not_mem_nil, or_false, not_or, imp_false]
  exact ⟨ink _ (by decide), ink _ (by decide), ink _ (by decide), ink _ (by decide)⟩

/-- Two texts are cut alike if they have the same depth behind them wherever they stand. -/
def Alike (s t : List Char) : Prop := ∀ depth, depthBehind nesting ',' depth s = depthBehind nesting ',' depth t

namespace Alike

variable {s s' t t' : List Char}

theorem refl (s : List Char) : Alike s s := fun _ => rfl

theorem symm (alike : Alike s t) : Alike t s := fun depth => (alike depth).symm

theorem trans (first : Alike s s') (second : Alike s' t) : Alike s t := fun depth =>
  (first depth).trans (second depth)

theorem append (first : Alike s s') (second : Alike t t') : Alike (s ++ t) (s' ++ t') := by
  intro depth
  rw [depthBehind_append, depthBehind_append, first depth]
  exact congrArg _ (funext second)

/-- What has no depth and separates nothing can be left out. -/
theorem of_flat (flat : ∀ c ∈ s, nesting c = 0 ∧ c ≠ ',') : Alike s [] := fun depth =>
  depthBehind_of_flat flat depth

/-- Blanks around a text can be left out. -/
theorem of_padded (padded : Text.Padded s t) : Alike t s := by
  obtain ⟨front, back, rfl, before, after⟩ := padded
  have all := ((of_flat fun c member => flat_of_isBlank (before c member)).append (refl s)).append
    (of_flat fun c member => flat_of_isBlank (after c member))
  rwa [List.nil_append, List.append_nil] at all

theorem trim (s : List Char) : Alike s (Text.trim s) := of_padded (Text.padded_trim s)

theorem joinWith {sep : List Char} {pieces pieces' : List (List Char)}
    (alike : List.Forall₂ Alike pieces pieces') :
    Alike (Text.joinWith sep pieces) (Text.joinWith sep pieces') := by
  induction alike with
  | nil => exact refl _
  | cons first rest ih =>
    cases rest with
    | nil => exact first
    | cons next rest => exact (first.append (refl sep)).append ih

end Alike

/-! ### Pieces -/

/-- Pieces between separators: no separator stands in a piece at depth zero, and all pieces but the last one
end at depth zero. The first one begins at a given depth. -/
inductive Pieces : Int → List (List Char) → Prop
  | last {depth : Int} {piece : List Char} (whole : (depthBehind nesting ',' depth piece).isSome) :
    Pieces depth [piece]
  | cons {depth : Int} {piece : List Char} {pieces : List (List Char)}
    (whole : depthBehind nesting ',' depth piece = some 0) (rest : Pieces 0 pieces) :
    Pieces depth (piece :: pieces)

/-- A text is cut into pieces. -/
theorem pieces_splitTop (depth : Int) (s : List Char) : Pieces depth (splitTop ',' depth s) := by
  induction s generalizing depth with
  | nil => exact .last rfl
  | cons c r ih =>
    rw [splitTop]
    split
    · rename_i isSep
      exact .cons (isSep.2 ▸ rfl) (ih 0)
    · rename_i whole
      have shift (piece : List Char) : depthBehind nesting ',' depth (c :: piece) =
          depthBehind nesting ',' (depth + nesting c) piece := by
        rw [depthBehind, if_neg whole]
      have behind := ih (depth + nesting c)
      split
      · rename_i none
        rw [none] at behind
        cases behind
      · rename_i piece pieces cut
        rw [cut] at behind
        cases behind with
        | last isWhole => exact .last (shift piece ▸ isWhole)
        | cons isWhole rest => exact .cons ((shift piece).trans isWhole) rest

/-- What is cut behind a piece is cut at the depth behind it. -/
private theorem splitTop_append {depth behind : Int} {piece : List Char}
    (whole : depthBehind nesting ',' depth piece = some behind) (rest : List Char) :
    splitTop ',' depth (piece ++ rest) = (splitTop ',' behind rest).modifyHead (piece ++ ·) := by
  induction piece generalizing depth with
  | nil =>
    cases whole
    rw [List.nil_append]
    cases splitTop ',' behind rest <;> rfl
  | cons c piece ih =>
    rw [depthBehind] at whole
    split at whole
    · cases whole
    rename_i noSep
    rw [List.cons_append, splitTop, if_neg noSep, ih whole]
    cases cut : splitTop ',' behind rest with
    | nil =>
      have some := pieces_splitTop behind rest
      rw [cut] at some
      cases some
    | cons next others => rfl

/-- Pieces are found again where they were put together. -/
theorem splitTop_joinWith {depth : Int} {pieces : List (List Char)} (arePieces : Pieces depth pieces) :
    splitTop ',' depth (joinWith [','] pieces) = pieces := by
  induction arePieces with
  | last whole =>
    rename_i depth piece
    obtain ⟨behind, isBehind⟩ := Option.isSome_iff_exists.1 whole
    have cut := splitTop_append isBehind []
    rw [List.append_nil, splitTop, List.modifyHead_cons, List.append_nil] at cut
    exact cut
  | @cons depth piece pieces whole rest ih =>
    cases pieces with
    | nil => cases rest
    | cons next others =>
      change splitTop ',' depth (piece ++ [','] ++ joinWith [','] (next :: others)) = _
      rw [List.append_assoc, splitTop_append whole, List.singleton_append, splitTop, if_pos ⟨rfl, rfl⟩, ih,
        List.modifyHead_cons, List.append_nil]

/-- Pieces can be left out. -/
theorem Pieces.filter {depth : Int} {pieces : List (List Char)} (arePieces : Pieces depth pieces)
    (zero : depth = 0) (keep : List Char → Bool) (some : pieces.filter keep ≠ []) :
    Pieces 0 (pieces.filter keep) := by
  induction arePieces with
  | last whole =>
    subst zero
    rename_i piece
    cases kept : keep piece with
    | true =>
      rw [List.filter_cons_of_pos kept, List.filter_nil]
      exact .last whole
    | false =>
      rw [List.filter_cons_of_neg (by rw [kept]; exact Bool.false_ne_true), List.filter_nil] at some
      exact absurd rfl some
  | @cons depth piece pieces whole rest ih =>
    subst zero
    cases kept : keep piece with
    | true =>
      rw [List.filter_cons_of_pos kept]
      by_cases none : pieces.filter keep = []
      · rw [none]
        exact .last (by rw [whole]; rfl)
      · exact .cons whole (ih rfl none)
    | false =>
      rw [List.filter_cons_of_neg (by rw [kept]; exact Bool.false_ne_true)] at some ⊢
      exact ih rfl some

/-- Pieces can be exchanged for others that are cut alike. -/
theorem Pieces.congr {depth : Int} {pieces pieces' : List (List Char)} (arePieces : Pieces depth pieces)
    (alike : List.Forall₂ Alike pieces pieces') : Pieces depth pieces' := by
  induction arePieces generalizing pieces' with
  | last whole =>
    cases alike with
    | cons first rest =>
      cases rest
      exact .last (first _ ▸ whole)
  | cons whole _ ih =>
    cases alike with
    | cons first rest => exact .cons (first _ ▸ whole) (ih rest)

/-- Level texts are pieces. -/
theorem pieces_of_level {pieces : List (List Char)} (level : ∀ piece ∈ pieces, Level nesting ',' 0 piece)
    (some : pieces ≠ []) : Pieces 0 pieces := by
  induction pieces with
  | nil => exact absurd rfl some
  | cons piece rest ih =>
    obtain ⟨first, others⟩ := List.forall_mem_cons.1 level
    cases rest with
    | nil => exact .last (by rw [first]; rfl)
    | cons next rest => exact .cons first (ih others (List.cons_ne_nil _ _))

/-! ### The first separator -/

/-- The depth by parentheses alone. -/
def parens (c : Char) : Int := if c = '(' then 1 else if c = ')' then -1 else 0

private theorem breakTop_cons (sep : Char) (depth : Int) (c : Char) (r : List Char) :
    breakTop sep depth (c :: r) = if c = sep ∧ depth = 0 then some ([], r) else
      (breakTop sep (depth + parens c) r).map fun parts => (c :: parts.1, parts.2) := by
  rw [breakTop, parens]
  split
  · rfl
  · split
    · rfl
    · split
      · rfl
      · rw [Int.add_zero]

/-- A text is cut behind its level part. -/
theorem breakTop_append {sep : Char} {depth : Int} {s : List Char}
    (level : depthBehind parens sep depth s = some 0) (rest : List Char) :
    breakTop sep depth (s ++ sep :: rest) = some (s, rest) := by
  induction s generalizing depth with
  | nil =>
    cases level
    rw [List.nil_append, breakTop_cons, if_pos ⟨rfl, rfl⟩]
  | cons c r ih =>
    rw [depthBehind] at level
    split at level
    · cases level
    rename_i noSep
    rw [List.cons_append, breakTop_cons, if_neg noSep, ih level]
    rfl

/-- A level text is not cut. -/
theorem breakTop_of_level {sep : Char} {depth behind : Int} {s : List Char}
    (level : depthBehind parens sep depth s = some behind) : breakTop sep depth s = none := by
  induction s generalizing depth with
  | nil => rfl
  | cons c r ih =>
    rw [depthBehind] at level
    split at level
    · cases level
    rename_i noSep
    rw [breakTop_cons, if_neg noSep, ih level]
    rfl

/-- The text of a block up to its closing brace. -/
theorem featureBlocks_of_inside {s block : List Char} (free : '\x7d' ∉ s) :
    featureBlocks (some block) (s ++ ['\x7d']) = .ok [block.reverse ++ s] := by
  induction s generalizing block with
  | nil =>
    rw [List.nil_append, featureBlocks, if_pos rfl, List.append_nil]
    rfl
  | cons c r ih =>
    rw [List.mem_cons, not_or] at free
    rw [List.cons_append, featureBlocks, if_neg (Ne.symm free.1), ih free.2, List.reverse_cons,
      List.append_assoc]
    rfl

/-! ### Arrows -/

theorem breakAt_eq_cutAt (sep : Char) (s : List Char) : breakAt sep s = cutAt [sep] s := by
  induction s with
  | nil => rfl
  | cons c r ih =>
    rw [breakAt, cutAt, ih]
    by_cases isSep : c = sep
    · subst isSep
      rw [if_pos rfl, if_pos (by simp [List.isPrefixOf])]
      rfl
    · rw [if_neg isSep, if_neg (by simpa [List.isPrefixOf] using Ne.symm isSep)]

theorem breakArrow_eq_cutAt (s : List Char) : breakArrow s = cutAt [':', '-'] s := by
  induction s with
  | nil => rfl
  | cons c r ih =>
    unfold breakArrow
    split
    · rfl
    · rename_i noArrow
      rw [cutAt, if_neg, ih]
      intro isPrefix
      obtain ⟨rest, equal⟩ := List.isPrefixOf_iff_prefix.1 isPrefix
      cases equal
      exact noArrow rest rfl rfl

/-- Two characters side by side in texts put together stand in one of them or where they meet. -/
theorem pair_infix_append {a b : Char} {s t : List Char} (isInfix : [a, b] <:+: s ++ t) :
    [a, b] <:+: s ∨ [a, b] <:+: t ∨ s.getLast? = some a ∧ t.head? = some b := by
  induction s with
  | nil => exact .inr (.inl isInfix)
  | cons c s ih =>
    rcases List.infix_cons_iff.1 isInfix with isPrefix | later
    · obtain ⟨rfl, behind⟩ := List.cons_prefix_cons.1 isPrefix
      have next := List.singleton_prefix_iff_head?_eq_some.1 behind
      cases s with
      | nil => exact .inr (.inr ⟨rfl, next⟩)
      | cons d s =>
        cases next
        exact .inl ⟨[], s, rfl⟩
    · rcases ih later with inFirst | inSecond | ⟨isLast, isFirst⟩
      · exact .inl (List.infix_cons inFirst)
      · exact .inr (.inl inSecond)
      · refine .inr (.inr ⟨?_, isFirst⟩)
        rw [List.getLast?_cons, isLast]
        rfl

/-- Nor do two characters stand side by side because another one stands between them. -/
theorem not_infix_append_cons {a b c : Char} {s t : List Char} (noFirst : c ≠ a) (noSecond : c ≠ b)
    (first : ¬[a, b] <:+: s) (second : ¬[a, b] <:+: t) : ¬[a, b] <:+: s ++ c :: t := by
  intro isInfix
  rcases pair_infix_append isInfix with inFirst | behind | ⟨-, isSecond⟩
  · exact first inFirst
  · rcases List.infix_cons_iff.1 behind with isPrefix | inSecond
    · exact noFirst (List.cons_prefix_cons.1 isPrefix).1.symm
    · exact second inSecond
  · exact noSecond (Option.some.inj isSecond)

/-- A text is cut at an arrow if no other one stands in front of it. -/
theorem cutAt_arrow {before : List Char} (none : ¬[':', '-'] <:+: before ++ [':']) (after : List Char) :
    cutAt [':', '-'] (before ++ [':', '-'] ++ after) = some (before, after) := by
  induction before with
  | nil => rfl
  | cons c rest ih =>
    rw [List.cons_append, List.infix_cons_iff, not_or] at none
    rw [List.cons_append, List.cons_append, cutAt, if_neg, ih none.2]
    · rfl
    · intro isPrefix
      refine none.1 (List.prefix_of_prefix_length_le (List.isPrefixOf_iff_prefix.1 isPrefix) ?_ (by simp))
      exact ⟨'-' :: after, by simp⟩

/-! ### Points -/

/-- The depth behind a text, if no point in it ends a clause. -/
def depthBehindPoints (depth : Int) : List Char → Option Int
  | [] => some depth
  | c :: r =>
    if c = '.' ∧ depth = 0 ∧ r.head?.any isBlank = true then none
    else depthBehindPoints (depth + nesting c) r

/-- No point ends a clause in a text, also if more stands behind it, and the depth behind it is the same. -/
def Steady (depth : Int) (s : List Char) : Prop :=
  depthBehindPoints depth s = some depth ∧ (s.getLast? ≠ some '.' ∨ depth ≠ 0)

/-- The last point of a text does not end a clause if it stands within parentheses or no blank follows. -/
theorem depthBehindPoints_append {depth behind : Int} {s t : List Char}
    (steady : depthBehindPoints depth s = some behind)
    (ends : s.getLast? ≠ some '.' ∨ behind ≠ 0 ∨ t.head?.any isBlank = false) :
    depthBehindPoints depth (s ++ t) = depthBehindPoints behind t := by
  induction s generalizing depth with
  | nil =>
    cases steady
    rfl
  | cons c r ih =>
    rw [depthBehindPoints] at steady
    split at steady
    · cases steady
    rename_i goesOn
    cases r with
    | nil =>
      cases steady
      rw [List.singleton_append, depthBehindPoints, if_neg]
      rintro ⟨rfl, rfl, blank⟩
      rcases ends with other | inside | ink
      · exact other rfl
      · exact inside rfl
      · rw [ink] at blank
        cases blank
    | cons d r =>
      have next : (d :: r ++ t).head? = (d :: r).head? := rfl
      rw [List.cons_append, depthBehindPoints, next, if_neg goesOn]
      exact ih steady (by rwa [List.getLast?_cons_cons] at ends)

theorem Steady.append {depth : Int} {s t : List Char} (first : Steady depth s) (second : Steady depth t) :
    Steady depth (s ++ t) := by
  refine ⟨by rw [depthBehindPoints_append first.1 (first.2.imp_right .inl), second.1], ?_⟩
  cases t with
  | nil => rw [List.append_nil]; exact first.2
  | cons c r =>
    rw [List.getLast?_append_of_ne_nil _ (List.cons_ne_nil c r)]
    exact second.2

/-- A text without parentheses and braces is steady if it stands within some or holds no blanks. -/
theorem depthBehindPoints_of_flat {depth : Int} {s : List Char} (zero : ∀ c ∈ s, nesting c = 0)
    (word : depth ≠ 0 ∨ ∀ c ∈ s, isBlank c = false) : depthBehindPoints depth s = some depth := by
  induction s with
  | nil => rfl
  | cons c r ih =>
    obtain ⟨first, others⟩ := List.forall_mem_cons.1 zero
    rw [depthBehindPoints, if_neg, first, Int.add_zero]
    · exact ih others (word.imp_right fun ink => (List.forall_mem_cons.1 ink).2)
    · rintro ⟨-, isZero, blank⟩
      rcases word with inside | ink
      · exact inside isZero
      · cases r with
        | nil => cases blank
        | cons d r =>
          rw [List.head?_cons, Option.any_some, ink d (by simp)] at blank
          cases blank

private theorem clausePieces_ne_nil (depth : Int) (s : List Char) : clausePieces depth s ≠ [] := by
  fun_induction clausePieces depth s <;> exact List.cons_ne_nil _ _

private theorem clausePieces_cons (depth : Int) (c : Char) (r : List Char) :
    clausePieces depth (c :: r) =
      if c = '.' ∧ depth = 0 ∧ r.head?.all isBlank = true then [] :: clausePieces 0 r
      else (clausePieces (depth + nesting c) r).modifyHead (c :: ·) := by
  have ends : (match r with
      | [] => true
      | d :: _ => isBlank d) = r.head?.all isBlank := by cases r <;> rfl
  rw [clausePieces.eq_def]
  simp only
  rw [← ends]
  congr 1
  cases cut : clausePieces (depth + nesting c) r with
  | nil => exact absurd cut (clausePieces_ne_nil _ _)
  | cons p ps => rfl

/-- A clause ends at a point behind a steady text. -/
theorem clausePieces_append {depth : Int} {s rest : List Char} (steady : depthBehindPoints depth s = some 0)
    (ends : rest.head?.all isBlank = true) :
    clausePieces depth (s ++ '.' :: rest) = s :: clausePieces 0 rest := by
  induction s generalizing depth with
  | nil =>
    cases steady
    rw [List.nil_append, clausePieces_cons, if_pos ⟨rfl, rfl, ends⟩]
  | cons c r ih =>
    rw [depthBehindPoints] at steady
    split at steady
    · cases steady
    rename_i goesOn
    rw [List.cons_append, clausePieces_cons, if_neg, ih steady, List.modifyHead_cons]
    rintro ⟨isPoint, isZero, atEnd⟩
    refine goesOn ⟨isPoint, isZero, ?_⟩
    cases r with
    | nil => cases atEnd
    | cons d r => exact atEnd

/-- Lines that do not begin like comments are kept. -/
theorem withoutComments_lines {texts : List String} (legible : ∀ text ∈ texts, Legible text)
    (noComment : ∀ text ∈ texts, ∀ c ∈ ['#', '%'], text.toList.head? ≠ some c) :
    withoutComments (String.join (texts.map (· ++ "\n"))).toList =
      joinWith ['\n'] (texts.map String.toList) := by
  rw [withoutComments, Legible.lines_join legible, List.filter_eq_self.2]
  intro line isLine
  obtain ⟨text, isText, rfl⟩ := List.mem_map.1 isLine
  have start : Text.trimStart text.toList = text.toList := (legible text isText).dropWhile_eq fun _ ink => ink
  have others := noComment text isText
  rw [start]
  split
  · rename_i whole
    exact absurd (by rw [whole]; rfl) (others '#' (by decide))
  · rename_i whole
    exact absurd (by rw [whole]; rfl) (others '%' (by decide))
  · rfl

/-- Clauses on lines are found again. -/
theorem clauses_lines {texts : List (List Char)}
    (steady : ∀ text ∈ texts, depthBehindPoints 0 text = some 0)
    (inked : ∀ text ∈ texts, trim text = text ∧ text ≠ []) {front : List Char}
    (isFront : front = [] ∨ front = ['\n']) :
    clauses (front ++ joinWith ['\n'] (texts.map (· ++ ['.']))) = texts := by
  induction texts generalizing front with
  | nil => rcases isFront with rfl | rfl <;> rfl
  | cons text rest ih =>
    obtain ⟨isSteady, others⟩ := List.forall_mem_cons.1 steady
    obtain ⟨⟨trimmed, some⟩, others'⟩ := List.forall_mem_cons.1 inked
    -- behind the point is the end of the text or the line feed in front of the next clause
    obtain ⟨front', isFront', ends, whole⟩ : ∃ front', (front' = [] ∨ front' = ['\n']) ∧
        (front' ++ joinWith ['\n'] (rest.map (· ++ ['.']))).head?.all isBlank = true ∧
          joinWith ['\n'] ((text :: rest).map (· ++ ['.'])) =
            text ++ '.' :: (front' ++ joinWith ['\n'] (rest.map (· ++ ['.']))) := by
      cases rest with
      | nil => exact ⟨[], .inl rfl, rfl, rfl⟩
      | cons next rest =>
        refine ⟨['\n'], .inr rfl, rfl, ?_⟩
        change text ++ ['.'] ++ ['\n'] ++ joinWith ['\n'] ((next :: rest).map (· ++ ['.'])) = _
        simp only [List.append_assoc, List.cons_append, List.nil_append]
    have before : ∀ c ∈ front, isBlank c = true := by
      rcases isFront with rfl | rfl
      · exact List.forall_mem_nil _
      · exact List.forall_mem_singleton.2 rfl
    have steady' : depthBehindPoints 0 (front ++ text) = .some 0 := by
      rcases isFront with rfl | rfl <;> exact isSteady
    have again := ih others others' isFront'
    have same : trim (front ++ text) = text := by
      rw [(Text.Padded.front before text).trim_eq, trimmed]
    unfold clauses at again ⊢
    rw [whole, ← List.append_assoc, clausePieces_append steady' ends, List.map_cons, same,
      List.filter_cons_of_pos, again]
    rwa [Bool.not_eq_true', List.isEmpty_eq_false_iff]

end Scan

end ProofWalk
