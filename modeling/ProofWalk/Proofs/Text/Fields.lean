import Mathlib.Data.List.Basic
import Mathlib.Data.List.TakeWhile
import ProofWalk.Decimal.Layout
import ProofWalk.Learning.GroundedLine
import ProofWalk.Proofs.Logic.Labels

/-!
# Fields that are put together and cut again

Pieces that do not hold the separator are found again where they were put together with it. The digits
of a number hold no separator and no blanks.

## Main results

* `Text.splitAt_intercalate` — pieces put together and cut again
* `cutAt_append`, `eq_append_of_cutAt` — a text cut at a mark
* `Text.readCount?_natDigits` — digits of a number that fits in a word
-/

namespace ProofWalk

namespace Text

theorem splitAt_eq_splitOn (sep : Char) (s : List Char) : splitAt sep s = s.splitOn sep := by
  induction s with
  | nil => rfl
  | cons c rest ih =>
    rw [splitAt, List.splitOn_cons_eq_if_modifyHead, ih]
    by_cases same : c = sep
    · rw [if_pos same, if_pos (beq_iff_eq.2 same)]
    · rw [if_neg same, if_neg (by rwa [beq_iff_eq])]
      cases cut : rest.splitOn sep with
      | nil => exact absurd cut (List.splitOn_ne_nil sep rest)
      | cons piece pieces => rfl

/-- Pieces without the separator are found again. -/
theorem splitAt_intercalate {sep : Char} {pieces : List (List Char)}
    (apart : ∀ piece ∈ pieces, sep ∉ piece) (some : pieces ≠ []) :
    splitAt sep ([sep].intercalate pieces) = pieces := by
  rw [splitAt_eq_splitOn, List.splitOn_intercalate sep apart some]

/-- Filled pieces are found again without the empty piece that a text without pieces is cut into. -/
theorem filter_splitAt_intercalate {sep : Char} {pieces : List (List Char)}
    (apart : ∀ piece ∈ pieces, sep ∉ piece) (filled : ∀ piece ∈ pieces, piece ≠ []) :
    (splitAt sep ([sep].intercalate pieces)).filter (fun piece => !piece.isEmpty) = pieces := by
  by_cases none : pieces = []
  · subst none
    rfl
  · rw [splitAt_intercalate apart none, List.filter_eq_self]
    intro piece member
    rw [List.isEmpty_eq_false_iff.2 (filled piece member)]
    rfl

/-- The string form of `splitAt_intercalate`. -/
theorem fields_intercalate {sep : Char} {pieces : List String} (apart : ∀ piece ∈ pieces, sep ∉ piece.toList)
    (some : pieces ≠ []) : fields sep ((String.singleton sep).intercalate pieces) = pieces := by
  have apart' : ∀ piece ∈ pieces.map String.toList, sep ∉ piece := by
    intro piece member
    obtain ⟨s, isPiece, rfl⟩ := List.mem_map.1 member
    exact apart s isPiece
  rw [fields, String.toList_intercalate, String.toList_singleton,
    splitAt_intercalate apart' (by simpa using some), List.map_map]
  conv_rhs => rw [← List.map_id pieces]
  exact List.map_congr_left fun s _ => String.ofList_toList

theorem joinWith_eq_intercalate (sep : List Char) (pieces : List (List Char)) :
    joinWith sep pieces = sep.intercalate pieces := by
  induction pieces with
  | nil => simp [joinWith]
  | cons piece rest ih =>
    cases rest with
    | nil => simp [joinWith]
    | cons next rest =>
      rw [List.intercalate_cons_cons, ← ih]
      rfl

/-- A text is put together from its fields. -/
theorem intercalate_fields (sep : Char) (s : String) :
    (String.singleton sep).intercalate (fields sep s) = s := by
  apply String.toList_injective
  rw [fields, String.toList_intercalate, String.toList_singleton, List.map_map]
  have same : List.map (String.toList ∘ String.ofList) (splitAt sep s.toList) = splitAt sep s.toList := by
    conv_rhs => rw [← List.map_id (splitAt sep s.toList)]
    exact List.map_congr_left fun piece _ => String.toList_ofList
  rw [same, ← joinWith_eq_intercalate, joinWith_splitAt]

/-- A character of pieces put together is one of the separator or of a piece. -/
theorem mem_intercalate {c : Char} {sep : List Char} {pieces : List (List Char)}
    (member : c ∈ sep.intercalate pieces) : c ∈ sep ∨ ∃ piece ∈ pieces, c ∈ piece := by
  induction pieces with
  | nil => simp at member
  | cons piece rest ih =>
    cases rest with
    | nil => exact .inr ⟨piece, by simp, by simpa using member⟩
    | cons next rest =>
      rw [List.intercalate_cons_cons, List.mem_append, List.mem_append] at member
      rcases member with (here | between) | behind
      · exact .inr ⟨piece, by simp, here⟩
      · exact .inl between
      · exact (ih behind).imp_right fun ⟨other, isPiece, there⟩ =>
          ⟨other, List.mem_cons_of_mem _ isPiece, there⟩

/-- What occurs in pieces put together and does not hold the separator occurs in a piece. -/
theorem exists_infix_of_infix_intercalate {sep : Char} {mark : List Char} (some : mark ≠ []) (other : sep ∉ mark)
    {pieces : List (List Char)} (inside : mark <:+: [sep].intercalate pieces) :
    ∃ piece ∈ pieces, mark <:+: piece := by
  -- a mark that reaches into the text behind a separator holds the separator
  have reaches {part rest : List Char} (isPrefix : part <+: sep :: rest) (within : part ⊆ mark) : part = [] := by
    cases part with
    | nil => rfl
    | cons c part =>
      rw [(List.cons_prefix_cons.1 isPrefix).1] at within
      exact absurd (within List.mem_cons_self) other
  induction pieces with
  | nil => exact absurd (List.infix_nil.1 inside) some
  | cons piece rest ih =>
    cases rest with
    | nil => exact ⟨piece, List.mem_singleton_self _, by rwa [List.intercalate_singleton] at inside⟩
    | cons next rest =>
      rw [List.intercalate_cons_cons, List.append_assoc, List.singleton_append, List.infix_append_iff] at inside
      rcases inside with here | behind | ⟨front, back, rfl, isSuffix, isPrefix⟩
      · exact ⟨piece, List.mem_cons_self, here⟩
      · rcases List.infix_cons_iff.1 behind with isPrefix | later
        · exact absurd (reaches isPrefix (List.Subset.refl _)) some
        · obtain ⟨other, member, there⟩ := ih later
          exact ⟨other, List.mem_cons_of_mem _ member, there⟩
      · rw [reaches isPrefix (List.subset_append_right ..), List.append_nil]
        exact ⟨piece, List.mem_cons_self, isSuffix.isInfix⟩

/-- Pieces put together end in the last one. -/
theorem exists_intercalate_concat (sep : List Char) (pieces : List (List Char)) (last : List Char) :
    ∃ front, sep.intercalate (pieces ++ [last]) = front ++ last := by
  induction pieces with
  | nil => exact ⟨[], List.intercalate_singleton⟩
  | cons piece rest ih =>
    obtain ⟨front, ends⟩ := ih
    refine ⟨piece ++ sep ++ front, ?_⟩
    rw [List.cons_append, List.intercalate_cons_of_ne_nil (by simp), ends]
    simp only [List.append_assoc]

/-- Nothing is dropped from the end of a text whose last piece ends otherwise. -/
theorem dropWhile_reverse_append {p : Char → Bool} (front : List Char) {last : List Char}
    (some : last ≠ []) (other : ∀ c ∈ last, p c = false) :
    ((front ++ last).reverse.dropWhile p).reverse = front ++ last := by
  rw [List.reverse_append]
  cases reversed : last.reverse with
  | nil => exact absurd (List.reverse_eq_nil_iff.1 reversed) some
  | cons c rest =>
    have isLast : c ∈ last := List.mem_reverse.1 (by rw [reversed]; simp)
    rw [List.cons_append, List.dropWhile_cons_of_neg (by rw [other c isLast]; exact Bool.false_ne_true),
      ← List.cons_append, ← reversed, ← List.reverse_append, List.reverse_reverse]

/-- A text that does not begin with a blank keeps its beginning, and so on from the other end. -/
theorem trim_of_forall {s : List Char} (ink : ∀ c ∈ s, isBlank c = false) : trim s = s := by
  have keeps (s : List Char) (ink : ∀ c ∈ s, isBlank c = false) : s.dropWhile isBlank = s := by
    cases s with
    | nil => rfl
    | cons c rest =>
      exact List.dropWhile_cons_of_neg (by rw [ink c (by simp)]; exact Bool.false_ne_true)
  rw [trim, trimStart, keeps s ink, trimEnd,
    keeps s.reverse fun c member => ink c (List.mem_reverse.1 member), List.reverse_reverse]

theorem isDigit_of_mem_natDigits {n : Nat} {c : Char} (member : c ∈ Decimal.natDigits n) :
    c.isDigit = true :=
  Nat.isDigit_of_mem_toDigits (by decide) (by decide) member

/-- Digits are no blanks. -/
theorem isBlank_of_isDigit {c : Char} (digit : c.isDigit = true) : isBlank c = false := by
  have bounds : 48 ≤ c.toNat ∧ c.toNat ≤ 57 := by
    simp only [Char.isDigit, Bool.and_eq_true, decide_eq_true_eq] at digit
    exact digit
  simp only [isBlank, Bool.or_eq_false_iff, Bool.and_eq_false_imp, decide_eq_true_eq,
    decide_eq_false_iff_not, beq_eq_false_iff_ne]
  omega

theorem trim_natDigits (n : Nat) : trim (Decimal.natDigits n) = Decimal.natDigits n :=
  trim_of_forall fun _ member => isBlank_of_isDigit (isDigit_of_mem_natDigits member)

theorem natDigits_ne_nil (n : Nat) : Decimal.natDigits n ≠ [] := Nat.toDigits_ne_nil

/-- The digits of a number that fits in a word are a count. -/
theorem readCount?_natDigits (n : Nat) :
    readCount? (Decimal.natDigits n) = if n < wordLimit then some n else none :=
  readCount?_toDigits n

/-- An integer that fits in a signed word is read from its text. -/
theorem readInteger?_intText {n : Int} (low : -(wordLimit / 2 : Int) ≤ n) (high : n < wordLimit / 2) :
    readInteger? (trim (Decimal.intText n)) = some n := by
  cases n with
  | ofNat m =>
    have sign : '-' ∉ Nat.toDigits 10 m := not_mem_toDigits (by decide) m
    have below : m < wordLimit / 2 := by
      change (m : Int) < _ at high
      omega
    change readInteger? (trim (Decimal.natDigits m)) = _
    rw [trim_natDigits, Decimal.natDigits]
    unfold readInteger?
    split
    · rename_i rest digits
      rw [digits] at sign
      exact absurd (List.mem_cons_self ..) sign
    · rw [readBelow?_toDigits, if_pos below]
      rfl
  | negSucc m =>
    have below : m + 1 ≤ wordLimit / 2 := by
      omega
    have ink : ∀ c ∈ '-' :: Decimal.natDigits (m + 1), isBlank c = false := by
      intro c member
      rcases List.mem_cons.1 member with rfl | digit
      · decide
      · exact isBlank_of_isDigit (isDigit_of_mem_natDigits digit)
    change readInteger? (trim ('-' :: Decimal.natDigits (m + 1))) = _
    rw [trim_of_forall ink, readInteger?, Decimal.natDigits, readDigits?_toDigits, Option.filter_some,
      if_pos (by simpa using below)]
    rfl

/-- A character that is no digit is not among the digits of a number. -/
theorem not_mem_natDigits {c : Char} (other : c.isDigit = false) (n : Nat) :
    c ∉ Decimal.natDigits n :=
  not_mem_toDigits other n

/-- A number that has been read consists of digits. -/
theorem isDigit_of_readDigitsFrom? {digits : List Char} {value n : Nat}
    (read : readDigitsFrom? value digits = some n) {c : Char} (member : c ∈ digits) :
    c.isDigit = true := by
  induction digits generalizing value with
  | nil => cases member
  | cons d rest ih =>
    obtain ⟨v, isValue, behind⟩ := Option.bind_eq_some_iff.1 read
    rcases List.mem_cons.1 member with rfl | later
    · rw [digitValue?] at isValue
      split at isValue
      · rename_i bounds
        rw [Char.isDigit, Bool.and_eq_true, decide_eq_true_eq, decide_eq_true_eq]
        exact bounds
      · cases isValue
    · exact ih behind later

/-- A count that has been read consists of digits, with a sign at most. -/
theorem isDigit_of_readCount? {s : List Char} {n : Nat} (read : readCount? s = some n) {c : Char}
    (member : c ∈ s) : c = '+' ∨ c.isDigit = true := by
  have all {digits : List Char} (read : readDigits? digits = some n) (member : c ∈ digits) :
      c.isDigit = true := by
    cases digits with
    | nil => cases member
    | cons d rest => exact isDigit_of_readDigitsFrom? read member
  have digits := (Option.filter_eq_some_iff.1 read).1
  split at digits
  · exact (List.mem_cons.1 member).imp_right (all digits)
  · exact .inr (all digits member)

/-- What is no blank is kept. -/
theorem mem_trim {s : List Char} {c : Char} (member : c ∈ s) (ink : isBlank c = false) : c ∈ trim s := by
  have kept {s : List Char} (member : c ∈ s) : c ∈ s.dropWhile isBlank := by
    rw [← List.takeWhile_append_dropWhile (p := isBlank) (l := s), List.mem_append] at member
    refine member.resolve_left fun dropped => ?_
    rw [List.mem_takeWhile_imp dropped] at ink
    cases ink
  exact List.mem_reverse.2 (kept (List.mem_reverse.2 (kept member)))

end Text

/-- A text is cut at the first place where the mark can begin. -/
theorem cutAt_append {m : Char} {ms before : List Char} (first : m ∉ before) (after : List Char) :
    cutAt (m :: ms) (before ++ (m :: ms) ++ after) = some (before, after) := by
  induction before with
  | nil =>
    rw [List.nil_append, List.cons_append, cutAt, if_pos]
    · change some ([], (m :: (ms ++ after)).drop (ms.length + 1)) = _
      rw [List.drop_succ_cons, List.drop_left]
    · rw [← List.cons_append, List.isPrefixOf_iff_prefix]
      exact List.prefix_append _ _
  | cons c rest ih =>
    have other : c ≠ m := fun same => first (by rw [same]; simp)
    rw [List.cons_append, List.cons_append, cutAt, if_neg]
    · rw [ih fun member => first (List.mem_cons_of_mem _ member)]
      rfl
    · rw [List.isPrefixOf_iff_prefix]
      intro isPrefix
      exact other (List.cons_prefix_cons.1 isPrefix).1.symm

/-- A text without the first character of a mark is not cut. -/
theorem cutAt_of_not_mem {m : Char} {ms s : List Char} (none : m ∉ s) :
    cutAt (m :: ms) s = .none := by
  induction s with
  | nil => rfl
  | cons c rest ih =>
    have other : c ≠ m := fun same => none (by rw [same]; simp)
    rw [cutAt, if_neg, ih fun member => none (List.mem_cons_of_mem _ member)]
    · rfl
    · rw [List.isPrefixOf_iff_prefix]
      intro isPrefix
      exact other (List.cons_prefix_cons.1 isPrefix).1.symm

/-- What a text is cut into, with the mark between, is the text. -/
theorem eq_append_of_cutAt {mark s before after : List Char} (cut : cutAt mark s = some (before, after)) :
    s = before ++ mark ++ after := by
  induction s generalizing before with
  | nil =>
    rw [cutAt] at cut
    split at cut <;> cases cut
    rename_i empty
    rw [List.isEmpty_iff.1 empty]
    rfl
  | cons c rest ih =>
    rw [cutAt] at cut
    split at cut
    · rename_i isPrefix
      cases cut
      exact (List.prefix_iff_eq_append.1 (List.isPrefixOf_iff_prefix.1 isPrefix)).symm
    · obtain ⟨⟨front, back⟩, behind, equal⟩ := Option.map_eq_some_iff.1 cut
      cases equal
      rw [ih behind]
      rfl

/-- A text is cut at a mark just if the mark occurs in it. -/
theorem isSome_cutAt_iff {mark s : List Char} : (cutAt mark s).isSome ↔ mark <:+: s := by
  induction s with
  | nil =>
    rw [cutAt, List.infix_nil]
    cases mark <;> simp
  | cons c rest ih =>
    rw [cutAt, List.infix_cons_iff, ← ih]
    split
    · rename_i isPrefix
      simp [List.isPrefixOf_iff_prefix.1 isPrefix]
    · rename_i noPrefix
      rw [List.isPrefixOf_iff_prefix] at noPrefix
      simp [noPrefix]

/-- What stands in front of the first mark does not hold it. -/
theorem not_infix_of_cutAt {mark s before after : List Char} (some : mark ≠ [])
    (cut : cutAt mark s = .some (before, after)) : ¬mark <:+: before := by
  induction s generalizing before with
  | nil =>
    rw [cutAt] at cut
    split at cut
    · rename_i empty
      exact absurd (List.isEmpty_iff.1 empty) some
    · cases cut
  | cons c rest ih =>
    have whole := eq_append_of_cutAt cut
    rw [cutAt] at cut
    split at cut
    · cases cut
      rwa [List.infix_nil]
    · rename_i noPrefix
      obtain ⟨⟨front, back⟩, behind, equal⟩ := Option.map_eq_some_iff.1 cut
      cases equal
      intro isInfix
      rcases List.infix_cons_iff.1 isInfix with isPrefix | later
      · refine noPrefix (List.isPrefixOf_iff_prefix.2 (isPrefix.trans ?_))
        rw [whole, List.append_assoc]
        exact List.prefix_append _ _
      · exact ih behind later

/-- A character at which a text is cut does not come before. -/
theorem not_mem_of_cutAt {m : Char} {s before after : List Char}
    (cut : cutAt [m] s = some (before, after)) : m ∉ before := by
  intro member
  obtain ⟨front, back, equal⟩ := List.append_of_mem member
  exact not_infix_of_cutAt (List.cons_ne_nil _ _) cut ⟨front, back, by rw [equal]; simp⟩

end ProofWalk
