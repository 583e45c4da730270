import ProofWalk.Proofs.Decimal.RoundTrip
import ProofWalk.Proofs.Logic.Rereading
import ProofWalk.Proofs.Logic.Scanning

/-!
# Rules that are read again

A rule is written with all of its features in one pair of braces. The reader takes a block with a colon
outside of parentheses for one feature, which ranges over all that stands behind the colon. So a feature that
ranges over goals is read again only if its rule has no other features. Some names that can be read from
elsewhere end something in the text of a rule: a point in front of a blank ends a clause, a sharp in front of a
line makes it a comment, and a brace ends a block. The texts of all other rules are read again.

## Main definitions

* `Rule.Printable` — rules whose texts say what they are

## Main results

* `Rule.legible_text` — the text of a rule stands on one line
* `Rule.parseAll?_texts` — printable rules that have been read are read again from their texts
-/

namespace ProofWalk

open Text (isBlank isAllBlank trim joinWith)
open Scan

/-! ### Goals -/

/-- A text without the marks that open, close or separate anything. -/
def Text.Flat (s : List Char) : Prop := ∀ c ∈ s, c ∉ ['(', ')', '\x7b', '\x7d', ',', ':']

namespace Text.Flat

variable {s : List Char}

theorem nesting_eq (flat : Flat s) : ∀ c ∈ s, nesting c = 0 := fun c member =>
  nesting_of_ne fun isMark => flat c member (by
    simp only [List.mem_cons, List.not_mem_nil, or_false] at isMark ⊢
    tauto)

theorem parens_eq (flat : Flat s) : ∀ c ∈ s, parens c = 0 := by
  intro c member
  have other := flat c member
  simp only [List.mem_cons, not_or] at other
  rw [parens, if_neg other.1, if_neg other.2.1]

theorem ne (flat : Flat s) {sep : Char} (mark : sep ∈ ['(', ')', '\x7b', '\x7d', ',', ':']) :
    ∀ c ∈ s, c ≠ sep := by
  rintro c member rfl
  exact flat c member mark

theorem level_nesting (flat : Flat s) (depth : Int) : Level nesting ',' depth s :=
  depthBehind_of_flat (fun c member => ⟨flat.nesting_eq c member, flat.ne (by decide) c member⟩) depth

theorem level_parens (flat : Flat s) {sep : Char} (mark : sep ∈ ['(', ')', '\x7b', '\x7d', ',', ':'])
    (depth : Int) : Level parens sep depth s :=
  depthBehind_of_flat (fun c member => ⟨flat.parens_eq c member, flat.ne mark c member⟩) depth

theorem append {t : List Char} (first : Flat s) (second : Flat t) : Flat (s ++ t) := by
  intro c member
  exact (List.mem_append.1 member).elim (first c) (second c)

end Text.Flat

/-- The characters of functors are no marks. -/
theorem Text.flat_of_functor {s : List Char} (functor : ∀ c ∈ s, isFunctorChar c = true) : Text.Flat s := by
  intro c member mark
  have isFunctor := functor c member
  revert mark
  simp only [isFunctorChar, Bool.not_eq_true', Bool.or_eq_false_iff, beq_eq_false_iff_ne] at isFunctor
  obtain ⟨⟨⟨⟨⟨⟨⟨-, opened⟩, closed⟩, comma⟩, brace⟩, brace'⟩, colon⟩, -⟩ := isFunctor
  simp [opened, closed, comma, brace, brace', colon]

/-- A goal without braces in its arguments, read from somewhere. -/
structure Goal.Plain (g : Goal) : Prop where
  neat : g.Neat
  functor : ∀ c ∈ g.functor.toList, isFunctorChar c = true
  args : ∀ t ∈ g.args, ∀ c ∈ ['(', ')', '\x7b', '\x7d'], c ∉ t.chars

/-- A goal holds no braces in its arguments. -/
def Goal.Unbraced (g : Goal) : Prop := ∀ t ∈ g.args, '\x7b' ∉ t.chars ∧ '\x7d' ∉ t.chars

theorem Goal.From.plain {g : Goal} {text : List Char} (isFrom : g.From text) (unbraced : g.Unbraced) :
    g.Plain where
  neat := isFrom.neat
  functor := isFrom.functor
  args := by
    intro t isArg
    have apart := (isFrom.args t isArg).apart
    simp only [List.forall_mem_cons] at apart ⊢
    exact ⟨apart.1, apart.2.2.1, (unbraced t isArg).1, (unbraced t isArg).2, List.forall_mem_nil _⟩

/-- A goal is not cut in its functor and not within its parentheses. -/
theorem Goal.level_chars {g : Goal} {weigh : Char → Int} {sep : Char} (opens : weigh '(' = 1)
    (closes : weigh ')' = -1) (other : '(' ≠ sep) (comma : weigh ',' = 0)
    (functor : ∀ c ∈ g.functor.toList, weigh c = 0 ∧ c ≠ sep)
    (args : ∀ t ∈ g.args, ∀ c ∈ t.chars, weigh c = 0) : Level weigh sep 0 g.chars := by
  unfold Goal.chars
  split
  · exact depthBehind_of_flat functor 0
  · have opened : depthBehind weigh sep 0 ['('] = some 1 := by
      rw [depthBehind, if_neg fun isSep => other isSep.1, opens]
      rfl
    have closed : depthBehind weigh sep 1 [')'] = some 0 := by
      rw [depthBehind, if_neg fun isSep => absurd isSep.2 (by decide), closes]
      rfl
    have inner : Level weigh sep 1 (joinWith [','] (g.args.map Term.chars)) := by
      have separator : Level weigh sep 1 [','] := level_inside (by decide) (by simpa using comma)
      refine Text.joinWith_induction (Level weigh sep 1) rfl
        (fun s t first second => (first.append separator).append second) fun piece isPiece => ?_
      obtain ⟨t, isArg, rfl⟩ := List.mem_map.1 isPiece
      exact level_inside (by decide) (args t isArg)
    rw [Level] at inner ⊢
    rw [← List.singleton_append, depthBehind_append, depthBehind_append, depthBehind_of_flat functor,
      Option.bind_some, depthBehind_append, opened, Option.bind_some, inner, Option.bind_some, closed]

namespace Goal.Plain

variable {g : Goal}

theorem nesting_args (plain : g.Plain) : ∀ t ∈ g.args, ∀ c ∈ t.chars, nesting c = 0 := by
  intro t isArg c member
  refine nesting_of_ne fun mark => ?_
  exact plain.args t isArg c mark member

theorem parens_args (plain : g.Plain) : ∀ t ∈ g.args, ∀ c ∈ t.chars, parens c = 0 := by
  intro t isArg c member
  have other {d : Char} (mark : d ∈ ['(', ')', '\x7b', '\x7d']) : c ≠ d := by
    rintro rfl
    exact plain.args t isArg c mark member
  rw [parens, if_neg (other (by decide)), if_neg (other (by decide))]

theorem flat_functor (plain : g.Plain) : Text.Flat g.functor.toList := Text.flat_of_functor plain.functor

/-- Goals are not cut at commas, -/
theorem level_nesting (plain : g.Plain) : Level nesting ',' 0 g.chars :=
  level_chars rfl rfl (by decide) rfl
    (fun c member => ⟨plain.flat_functor.nesting_eq c member, plain.flat_functor.ne (by decide) c member⟩)
    plain.nesting_args

/-- nor at colons or braces. -/
theorem level_parens (plain : g.Plain) {sep : Char} (mark : sep ∈ ['\x7b', '\x7d', ',', ':']) :
    Level parens sep 0 g.chars := by
  have marks : ['\x7b', '\x7d', ',', ':'] ⊆ ['(', ')', '\x7b', '\x7d', ',', ':'] := by decide
  refine level_chars rfl rfl ?_ rfl
    (fun c member => ⟨plain.flat_functor.parens_eq c member, plain.flat_functor.ne (marks mark) c member⟩)
    plain.parens_args
  rintro rfl
  revert mark
  decide

/-- No point ends a clause within a goal. -/
theorem depthBehindPoints_chars (plain : g.Plain) {depth : Int} (positive : 0 ≤ depth) :
    depthBehindPoints depth g.chars = some depth := by
  have functor : depthBehindPoints depth g.functor.toList = some depth :=
    depthBehindPoints_of_flat plain.flat_functor.nesting_eq (.inr plain.neat.functor.ink)
  unfold Goal.chars
  split
  · exact functor
  · have inner : depthBehindPoints (depth + 1) (joinWith [','] (g.args.map Term.chars)) = some (depth + 1) := by
      have zero : ∀ c ∈ joinWith [','] (g.args.map Term.chars), nesting c = 0 := by
        intro c member
        rcases Text.mem_joinWith member with comma | ⟨piece, isPiece, inPiece⟩
        · rw [List.mem_singleton.1 comma]
          rfl
        · obtain ⟨t, isArg, rfl⟩ := List.mem_map.1 isPiece
          exact plain.nesting_args t isArg c inPiece
      exact depthBehindPoints_of_flat zero (.inl (by omega))
    have opened (rest : List Char) :
        depthBehindPoints depth ('(' :: rest) = depthBehindPoints (depth + 1) rest := by
      rw [depthBehindPoints, if_neg fun isPoint => absurd isPoint.1 (by decide)]
      rfl
    have closed : depthBehindPoints (depth + 1) [')'] = some depth := by
      rw [depthBehindPoints, if_neg fun isPoint => absurd isPoint.1 (by decide)]
      change some (depth + 1 + -1) = some depth
      rw [Int.add_neg_cancel_right]
    rw [List.append_assoc, depthBehindPoints_append functor (.inr (.inr rfl)), List.cons_append, opened,
      depthBehindPoints_append inner (.inr (.inl (by omega))), closed]

/-- The text of a goal ends in a point only if its functor does and it has no arguments. -/
theorem getLast?_chars (ends : g.args = [] → g.functor.toList.getLast? ≠ some '.') :
    g.chars.getLast? ≠ some '.' := by
  unfold Goal.chars
  split
  · rename_i none
    exact ends none
  · rw [List.getLast?_concat]
    decide

/-- No brace stands in the text of a goal. -/
theorem not_mem_chars (plain : g.Plain) {c : Char} (brace : c ∈ ['\x7b', '\x7d']) : c ∉ g.chars := by
  intro member
  have made : g.Of (· ≠ c) := by
    refine ⟨fun d inFunctor => ?_, fun t isArg d inTerm => ?_⟩
    · have marks : ['\x7b', '\x7d'] ⊆ ['(', ')', '\x7b', '\x7d', ',', ':'] := by decide
      exact plain.flat_functor.ne (marks brace) d inFunctor
    · rintro rfl
      have marks : ['\x7b', '\x7d'] ⊆ ['(', ')', '\x7b', '\x7d'] := by decide
      exact plain.args t isArg d (marks brace) inTerm
  rcases Goal.mem_chars made member with other | mark
  · exact other rfl
  · simp only [List.mem_cons, List.not_mem_nil, or_false] at brace mark
    rcases brace with rfl | rfl <;> revert mark <;> decide

end Goal.Plain

/-! ### Weights -/

/-- The text of a weight, without the mark in front of it. -/
def FeatureWeight.name : FeatureWeight → List Char
  | unit => []
  | fixed w => Decimal.plainChars w
  | bound v => v.name.toList

/-- A number is written as one, and a variable with the characters of functors. -/
def FeatureWeight.Plain : FeatureWeight → Prop
  | unit => True
  | fixed w => Term.denotesVariable (Decimal.plainChars w) = false
  | bound v => ∀ c ∈ v.name.toList, isFunctorChar c = true

/-- Numbers are written with characters that functors may have. -/
theorem isFunctorChar_of_mem_plainChars {w : Float} {c : Char} (member : c ∈ Decimal.plainChars w) :
    isFunctorChar c = true := by
  rcases Decimal.mem_plainChars member with digit | mark
  · have other {d : Char} (noDigit : d.isDigit = false) : c ≠ d := by
      rintro rfl
      rw [noDigit] at digit
      cases digit
    simp only [isFunctorChar, Text.isBlank_of_isDigit digit, Bool.not_eq_true', Bool.or_eq_false_iff,
      beq_eq_false_iff_ne]
    exact ⟨⟨⟨⟨⟨⟨⟨trivial, other (by decide)⟩, other (by decide)⟩, other (by decide)⟩, other (by decide)⟩,
      other (by decide)⟩, other (by decide)⟩, other (by decide)⟩
  · have all : ['-', '.', 'i', 'n', 'f', 'N', 'a'].all isFunctorChar = true := by decide
    exact List.all_eq_true.1 all c mark

/-- What begins like a variable is read as one. -/
theorem Term.exists_var_of_read {text : List Char} {s s' : Scope} {t : Term}
    (isVar : Term.denotesVariable (trim text) = true) (read : Term.read text s = .ok (t, s')) :
    ∃ v, t = .var v := by
  unfold Term.read at read
  simp only [isVar, if_true] at read
  split at read <;> cases read <;> exact ⟨_, rfl⟩

namespace FeatureWeight

variable {w : FeatureWeight}

theorem Plain.functor (plain : w.Plain) : ∀ c ∈ w.name, isFunctorChar c = true := by
  cases w with
  | unit => exact List.forall_mem_nil _
  | fixed value => exact fun c member => isFunctorChar_of_mem_plainChars member
  | bound v => exact plain

/-- The text of a weight with the mark in front of it. -/
theorem chars_eq (w : FeatureWeight) : w.chars = match w with
    | unit => []
    | _ => [' ', '@', ' '] ++ w.name := by
  cases w <;> rfl

theorem Plain.flat (plain : w.Plain) : Text.Flat w.chars := by
  have behind : Text.Flat ([' ', '@', ' '] ++ w.name) := by
    refine Text.Flat.append ?_ (Text.flat_of_functor plain.functor)
    simp only [Text.Flat, List.forall_mem_cons]
    exact ⟨by decide, by decide, by decide, List.forall_mem_nil _⟩
  cases w with
  | unit => exact fun c none => by cases none
  | fixed value => exact behind
  | bound v => exact behind

/-- How a weight is given in the text of a feature: no mark stands for one. -/
def Given (w : FeatureWeight) (text : Option (List Char)) : Prop :=
  match w with
  | unit => text = none
  | _ => ∃ t, text = some t ∧ trim t = w.name

/-- A weight is read again from its text. -/
theorem read_again {clause : List Char} {text : Option (List Char)} {s s' : Scope} (named : s.Named)
    (read : FeatureWeight.read clause text s = .ok (w, s')) :
    s'.Named ∧ ∀ clause' text', w.Plain → w.Given text' →
      FeatureWeight.read clause' text' s = .ok (w, s') := by
  cases text with
  | none =>
    cases read
    refine ⟨named, fun clause' text' _ given => ?_⟩
    cases given
    rfl
  | some text =>
    unfold FeatureWeight.read at read ⊢
    simp only at read
    split at read
    · -- a variable has its text as its name, so the same name is looked up in the scope
      rename_i isVar
      obtain ⟨⟨t, s₁⟩, readTerm, equal⟩ := Except.bind_eq_ok.1 read
      obtain ⟨isName, named'⟩ := Term.name_read _ s t s₁ named readTerm
      rw [Text.trim_trim] at isName
      obtain ⟨v, rfl⟩ := Term.exists_var_of_read ((Text.trim_trim text).symm ▸ isVar) readTerm
      cases equal
      have name : v.name = String.ofList (trim text) := isName
      refine ⟨named', fun clause' text' _ given => ?_⟩
      obtain ⟨text', rfl, same⟩ := given
      have again : trim text' = trim text := by
        change trim text' = v.name.toList at same
        rw [same, name, String.toList_ofList]
      simp only [again, isVar, if_true]
      exact Except.bind_eq_ok.2 ⟨_, readTerm, rfl⟩
    · cases isNumber : Decimal.readChars? (trim text) with
      | none =>
        rw [isNumber] at read
        cases read
      | some value =>
        rw [isNumber] at read
        cases read
        refine ⟨named, fun clause' text' plain given => ?_⟩
        obtain ⟨text', rfl, same⟩ := given
        change trim text' = Decimal.plainChars value at same
        change Term.denotesVariable (Decimal.plainChars value) = false at plain
        simp only [same, plain, Bool.false_eq_true, if_false, Decimal.readChars?_plainChars]
        rfl

end FeatureWeight

/-! ### Texts put together -/

/-- What is kept when texts are put together holds of goals with commas and blanks between them, -/
theorem Goal.joinWith_induction (P : List Char → Prop) (nil : P []) (append : ∀ s t, P s → P t → P (s ++ t))
    (comma : P [',', ' ']) {goals : List Goal} (each : ∀ g ∈ goals, P g.chars) :
    P (joinWith [',', ' '] (goals.map Goal.chars)) := by
  refine Text.joinWith_induction P nil (fun s t first second => append _ _ (append _ _ first comma) second) ?_
  intro piece isPiece
  obtain ⟨g, isGoal, rfl⟩ := List.mem_map.1 isPiece
  exact each g isGoal

/-- and of a feature. -/
theorem FeatureTemplate.chars_induction (P : List Char → Prop) (nil : P [])
    (append : ∀ s t, P s → P t → P (s ++ t)) (comma : P [',', ' ']) (colon : P " : ".toList)
    {f : FeatureTemplate} (goals : ∀ g ∈ f.goals, P g.chars) (weight : P f.weight.chars) : P f.chars := by
  obtain ⟨goal, findall⟩ := List.forall_mem_cons.1 goals
  refine append _ _ (append _ _ goal weight) ?_
  split
  · exact nil
  · exact append _ _ colon (Goal.joinWith_induction P nil append comma findall)

/-- The text of a feature stands on one line. -/
theorem FeatureTemplate.line {f : FeatureTemplate} (neat : ∀ g ∈ f.goals, g.Neat)
    (weight : ∀ v, f.weight = .bound v → Text.OnLine v.name) : '\n' ∉ f.chars := by
  refine chars_induction ('\n' ∉ ·) List.not_mem_nil (fun _ _ => List.not_mem_append) (by decide)
    (by decide) (fun g isGoal => (neat g isGoal).line) ?_
  cases given : f.weight with
  | unit => exact List.not_mem_nil
  | fixed w =>
    exact List.not_mem_append (by decide) fun member =>
      absurd (isFunctorChar_of_mem_plainChars member) (by decide)
  | bound v => exact List.not_mem_append (by decide) (weight v given)

/-- Texts of goals with commas between them. -/
private def Goal.AllGiven (goals : List Goal) (text : List Char) : Prop :=
  ∃ texts, List.Forall₂ (fun g t => trim t = Goal.chars g) goals texts ∧ text = joinWith [','] texts

/-- Goals are given by their texts with commas and blanks between them. -/
private theorem Goal.allGiven {goals : List Goal} (plain : ∀ g ∈ goals, g.Plain) (some : goals ≠ [])
    {back : List Char} (after : ∀ c ∈ back, isBlank c = true) :
    AllGiven goals ([' '] ++ joinWith [',', ' '] (goals.map chars) ++ back) := by
  obtain ⟨texts, areTexts, whole⟩ := Text.Padded.exists_joinWith (mt List.map_eq_nil_iff.1 some)
    (List.forall_mem_singleton.2 rfl : ∀ c ∈ [' '], isBlank c = true) after
  have each := (List.forall₂_and_left _ _).2 ⟨plain, List.forall₂_map_left_iff.1 areTexts⟩
  exact ⟨texts, each.imp fun g t known => known.2.trim_eq.trans known.1.neat.trim_chars, whole⟩

/-! ### Features -/

/-- The text of the goal of a feature and of its weight. -/
private def itemParts (item : List Char) : List Char × Option (List Char) :=
  match cutAt ['@'] item with
  | some (before, after) => (before, some after)
  | none => (item, none)

namespace FeatureTemplate

variable {f : FeatureTemplate}

private theorem read_eq (clause item findall : List Char) :
    FeatureTemplate.read clause item findall =
      Goal.read (itemParts item).1 >>= fun goal =>
        FeatureWeight.read clause (itemParts item).2 >>= fun weight =>
          Goal.readAll findall >>= fun findall =>
            pure { goal := goal, weight := weight, findall := findall } := by
  have same := breakAt_eq_cutAt '@' item
  unfold FeatureTemplate.read itemParts
  revert same
  generalize breakAt '@' item = parts
  rintro rfl
  cases cutAt ['@'] item <;> rfl

/-- A feature without braces that has been read from somewhere, and whose weight says what it is. -/
structure Plain (f : FeatureTemplate) : Prop where
  goal : f.goal.Plain
  free : '@' ∉ f.goal.chars
  weight : f.weight.Plain
  findall : ∀ g ∈ f.findall, g.Plain

/-- The text of a feature in front of the goals that it ranges over. -/
def itemChars (f : FeatureTemplate) : List Char := f.goal.chars ++ f.weight.chars

/-- A text of a feature, in front of the goals that it ranges over. -/
private def Given (f : FeatureTemplate) (item : List Char) : Prop :=
  trim (itemParts item).1 = f.goal.chars ∧ f.weight.Given (itemParts item).2

private theorem not_mem_itemParts (item : List Char) : '@' ∉ (itemParts item).1 := by
  unfold itemParts
  cases cut : cutAt ['@'] item with
  | none =>
    rw [← Option.not_isSome_iff_eq_none, isSome_cutAt_iff] at cut
    rintro member
    obtain ⟨before, after, equal⟩ := List.append_of_mem member
    exact cut ⟨before, after, by rw [List.append_assoc]; exact equal.symm⟩
  | some parts => exact not_mem_of_cutAt cut

/-- A feature is read again from its text. -/
private theorem read_again {clause item findall : List Char} {s s' : Scope} (named : s.Named)
    (read : FeatureTemplate.read clause item findall s = .ok (f, s')) :
    ((∀ g ∈ f.goals, g.Unbraced) → f.weight.Plain → f.Plain) ∧ s'.Named ∧
      ∀ clause' item' findall', f.weight.Plain → f.Given item' → Goal.AllGiven f.findall findall' →
        FeatureTemplate.read clause' item' findall' s = .ok (f, s') := by
  rw [read_eq] at read
  obtain ⟨⟨goal, s₁⟩, readGoal, read⟩ := Except.bind_eq_ok.1 read
  obtain ⟨⟨weight, s₂⟩, readWeight, read⟩ := Except.bind_eq_ok.1 read
  obtain ⟨⟨goals, s₃⟩, readAll, equal⟩ := Except.bind_eq_ok.1 read
  cases equal
  obtain ⟨isGoal, named₁, goalAgain⟩ := Goal.read_again named readGoal
  obtain ⟨named₂, weightAgain⟩ := FeatureWeight.read_again named₁ readWeight
  obtain ⟨areGoals, named₃, goalsAgain⟩ := Goal.readAll_again named₂ readAll
  refine ⟨fun unbraced plain => ?_, named₃, fun clause' item' findall' plain given givenGoals => ?_⟩
  · obtain ⟨ofGoal, ofGoals⟩ := List.forall_mem_cons.1 unbraced
    refine ⟨isGoal.plain ofGoal, fun member => ?_, plain, fun g member => ?_⟩
    · -- the goal is made of the text in front of the first mark
      have made : goal.Of (· ≠ '@') := by
        refine ⟨fun c inFunctor => ?_, fun t isArg c inTerm => ?_⟩
        · rintro rfl
          exact absurd (isGoal.functor _ inFunctor) (by decide)
        · rintro rfl
          exact not_mem_itemParts item ((isGoal.args t isArg).inside.subset inTerm)
      rcases Goal.mem_chars made member with other | mark
      · exact other rfl
      · revert mark
        decide
    · obtain ⟨piece, isFrom⟩ := areGoals g member
      exact isFrom.plain (ofGoals g member)
  · obtain ⟨texts, areTexts, rfl⟩ := givenGoals
    rw [read_eq]
    exact Except.bind_eq_ok.2 ⟨_, goalAgain _ given.1, Except.bind_eq_ok.2
      ⟨_, weightAgain _ _ plain given.2, Except.bind_eq_ok.2 ⟨_, goalsAgain texts areTexts, rfl⟩⟩⟩

/-- A feature is given by its text between blanks. -/
private theorem Plain.given (plain : f.Plain) {item : List Char} (padded : Text.Padded f.itemChars item) :
    f.Given item := by
  obtain ⟨front, back, rfl, before, after⟩ := padded
  have noMark : '@' ∉ front ++ f.goal.chars := by
    rw [List.mem_append, not_or]
    exact ⟨fun member => absurd (before _ member) (by decide), plain.free⟩
  have goal {back : List Char} (after : ∀ c ∈ back, isBlank c = true) :
      trim (front ++ f.goal.chars ++ back) = f.goal.chars :=
    (Text.Padded.trim_eq ⟨front, back, rfl, before, after⟩).trans plain.goal.neat.trim_chars
  have blank : ∀ c ∈ [' '], isBlank c = true := List.forall_mem_singleton.2 rfl
  -- a mark stands in front of the weight, if there is one
  have marked (chars : f.weight.chars = [' ', '@', ' '] ++ f.weight.name) :
      itemParts (front ++ f.itemChars ++ back) =
        (front ++ f.goal.chars ++ [' '], some ([' '] ++ f.weight.name ++ back)) := by
    have text : front ++ f.itemChars ++ back =
        (front ++ f.goal.chars ++ [' ']) ++ ['@'] ++ ([' '] ++ f.weight.name ++ back) := by
      rw [itemChars, chars]
      simp only [List.append_assoc, List.cons_append, List.nil_append]
    have none : '@' ∉ front ++ f.goal.chars ++ [' '] := by
      rw [List.mem_append, not_or]
      exact ⟨noMark, by decide⟩
    rw [text, itemParts, cutAt_append none]
  have name : trim ([' '] ++ f.weight.name ++ back) = f.weight.name :=
    (Text.Padded.trim_eq ⟨[' '], back, rfl, blank, after⟩).trans
      (Text.trim_of_forall fun c member => isBlank_of_isFunctorChar (plain.weight.functor c member))
  unfold Given
  cases weight : f.weight with
  | unit =>
    have none : '@' ∉ front ++ f.goal.chars ++ back := by
      rw [List.mem_append, not_or]
      exact ⟨noMark, fun member => absurd (after _ member) (by decide)⟩
    rw [itemChars, weight, FeatureWeight.chars, List.append_nil, itemParts, cutAt_of_not_mem none]
    exact ⟨goal after, rfl⟩
  | fixed w | bound w =>
    rw [marked (by rw [weight]; rfl), ← weight]
    refine ⟨goal blank, ?_⟩
    rw [weight] at name ⊢
    exact ⟨_, rfl, name⟩

/-- A block holds a feature with a colon and the goals that it ranges over, or features with commas between
them. -/
private def blockItems (block : List Char) : List (List Char × List Char) :=
  match breakTop ':' 0 block with
  | some parts => [parts]
  | none => ((splitTop ',' 0 block).filter fun item => !isAllBlank item).map (·, [])

private theorem readBlock_eq (clause block : List Char) : FeatureTemplate.readBlock clause block =
    (blockItems block).mapM fun item => FeatureTemplate.read clause item.1 item.2 := by
  unfold FeatureTemplate.readBlock blockItems
  cases breakTop ':' 0 block with
  | none => simp only [List.mapM_map]; rfl
  | some parts => simp only [List.mapM_cons, List.mapM_nil, pure_bind]

private theorem readBlocks_eq (clause : List Char) (blocks : List (List Char)) :
    List.flatten <$> blocks.mapM (FeatureTemplate.readBlock clause) =
      (blocks.flatMap blockItems).mapM fun item => FeatureTemplate.read clause item.1 item.2 := by
  induction blocks with
  | nil => rfl
  | cons block rest ih =>
    rw [List.flatMap_cons, List.mapM_append, ← ih, ← readBlock_eq, List.mapM_cons]
    simp only [map_bind, map_pure, List.flatten_cons, bind_map_left]

/-- How a feature is given by its text and the text of the goals that it ranges over. -/
private def GivenItem (f : FeatureTemplate) (item : List Char × List Char) : Prop :=
  f.weight.Plain ∧ f.Given item.1 ∧ Goal.AllGiven f.findall item.2

theorem Plain.level_nesting (plain : f.Plain) : Level nesting ',' 0 f.itemChars :=
  plain.goal.level_nesting.append (plain.weight.flat.level_nesting 0)

theorem Plain.level_parens (plain : f.Plain) {sep : Char} (mark : sep ∈ ['\x7b', '\x7d', ',', ':']) :
    Level parens sep 0 f.itemChars := by
  have marks : ['\x7b', '\x7d', ',', ':'] ⊆ ['(', ')', '\x7b', '\x7d', ',', ':'] := by decide
  exact (plain.goal.level_parens mark).append (plain.weight.flat.level_parens (marks mark) 0)

theorem chars_of_findall (none : f.findall = []) : f.chars = f.itemChars := by
  rw [FeatureTemplate.chars, none, List.append_nil, itemChars]

/-- A feature is not blank. -/
theorem Plain.isAllBlank_eq (plain : f.Plain) {text : List Char} (padded : Text.Padded f.itemChars text) :
    isAllBlank text = false := by
  have ink := plain.goal.neat.legible.isAllBlank_eq
  rw [Goal.text, String.toList_ofList] at ink
  rw [padded.isAllBlank_eq, itemChars]
  unfold isAllBlank at ink ⊢
  rw [List.all_append, ink, Bool.false_and]

/-- Features that range over no goals are found again in a block, -/
private theorem blockItems_of_plain {fs : List FeatureTemplate} (plain : ∀ f ∈ fs, f.Plain) (some : fs ≠ [])
    (noFindall : ∀ f ∈ fs, f.findall = []) :
    List.Forall₂ GivenItem fs (blockItems (joinWith [',', ' '] (fs.map FeatureTemplate.chars))) := by
  -- no colon stands outside of parentheses, so the block is cut at its commas
  have chars : fs.map FeatureTemplate.chars = fs.map itemChars :=
    List.map_congr_left fun f isFeature => chars_of_findall (noFindall f isFeature)
  have level : Level parens ':' 0 (joinWith [',', ' '] (fs.map itemChars)) := by
    have separator : Level parens ':' 0 [',', ' '] := by rfl
    refine Text.joinWith_induction (Level parens ':' 0) rfl
      (fun s t first second => (first.append separator).append second) fun piece isPiece => ?_
    obtain ⟨f, isFeature, rfl⟩ := List.mem_map.1 isPiece
    exact (plain f isFeature).level_parens (by decide)
  obtain ⟨texts, areTexts, whole⟩ := Text.Padded.exists_joinWith
    (mt List.map_eq_nil_iff.1 some : fs.map itemChars ≠ []) (List.forall_mem_nil _) (List.forall_mem_nil _)
  rw [List.nil_append, List.append_nil] at whole
  have each := (List.forall₂_and_left _ _).2 ⟨plain, List.forall₂_map_left_iff.1 areTexts⟩
  have pieces : Pieces 0 texts := by
    refine pieces_of_level (fun text member => ?_) ?_
    · obtain ⟨f, -, isPlain, padded⟩ := exists_of_forall₂ each member
      exact (Alike.of_padded padded 0).trans isPlain.level_nesting
    · rintro rfl
      exact some (List.forall₂_nil_right_iff.1 each)
  have filled : texts.filter (fun text => !isAllBlank text) = texts := by
    refine List.filter_eq_self.2 fun text member => ?_
    obtain ⟨f, -, isPlain, padded⟩ := exists_of_forall₂ each member
    rw [isPlain.isAllBlank_eq padded]
    rfl
  rw [chars, blockItems, breakTop_of_level level, whole]
  simp only
  rw [splitTop_joinWith pieces, filled, List.forall₂_map_right_iff]
  refine ((List.forall₂_and_left _ _).2 ⟨noFindall, each⟩).imp fun f text known => ?_
  obtain ⟨none, isPlain, padded⟩ := known
  exact ⟨isPlain.weight, isPlain.given padded, none ▸ ⟨[], .nil, rfl⟩⟩

/-- and so is a single feature that ranges over some. -/
private theorem blockItems_of_findall (plain : f.Plain) (some : f.findall ≠ []) :
    List.Forall₂ GivenItem [f] (blockItems f.chars) := by
  have blank : ∀ c ∈ [' '], isBlank c = true := List.forall_mem_singleton.2 rfl
  have text : f.chars =
      f.itemChars ++ [' '] ++ ':' :: ([' '] ++ joinWith [',', ' '] (f.findall.map Goal.chars) ++ []) := by
    unfold FeatureTemplate.chars
    split
    · contradiction
    · rw [itemChars, List.append_nil]
      simp only [List.append_assoc]
      rfl
  have level : Level parens ':' 0 (f.itemChars ++ [' ']) := (plain.level_parens (by decide)).append (by rfl)
  rw [blockItems, text, breakTop_append level]
  exact .cons ⟨plain.weight, plain.given (.back blank _),
    Goal.allGiven plain.findall some (List.forall_mem_nil _)⟩ .nil

/-- Features are found again in a block if none ranges over goals or there is only one. -/
private theorem blockItems_again {fs : List FeatureTemplate} (plain : ∀ f ∈ fs, f.Plain) (some : fs ≠ [])
    (single : (∀ f ∈ fs, f.findall = []) ∨ ∃ f, fs = [f]) :
    List.Forall₂ GivenItem fs (blockItems (joinWith [',', ' '] (fs.map FeatureTemplate.chars))) := by
  by_cases noFindall : ∀ f ∈ fs, f.findall = []
  · exact blockItems_of_plain plain some noFindall
  · -- it is the only one, so all goals behind its colon are its own
    obtain ⟨f, rfl⟩ := single.resolve_left noFindall
    exact blockItems_of_findall (plain f (by simp)) (by simpa using noFindall)

end FeatureTemplate

/-- No arrow stands in a goal that has been read from a text without one. -/
theorem Goal.From.noArrow {g : Goal} {text : List Char} (isFrom : g.From text)
    (none : ¬[':', '-'] <:+: text) : ¬[':', '-'] <:+: g.chars := by
  have inFunctor : ¬[':', '-'] <:+: g.functor.toList := fun inside =>
    absurd (isFrom.functor ':' (inside.subset (by simp))) (by decide)
  have nil : ¬[':', '-'] <:+: [] := by rw [List.infix_nil]; exact List.cons_ne_nil _ _
  have inArgs : ¬[':', '-'] <:+: joinWith [','] (g.args.map Term.chars) := by
    refine Text.joinWith_induction (fun s => ¬[':', '-'] <:+: s) nil (fun s t first second => ?_) ?_
    · rw [List.append_assoc]
      exact not_infix_append_cons (by decide) (by decide) first second
    · intro piece isPiece
      obtain ⟨t, isArg, rfl⟩ := List.mem_map.1 isPiece
      exact fun inside => none (inside.trans (isFrom.args t isArg).inside)
  unfold Goal.chars
  split
  · exact inFunctor
  · rw [List.append_assoc]
    exact not_infix_append_cons (by decide) (by decide) inFunctor
      (not_infix_append_cons (by decide) (by decide) inArgs nil)

/-! ### Clauses -/

namespace Rule

variable {r : Rule}

/-- The text of the head and of the body of a rule. -/
def logicChars (r : Rule) : List Char :=
  r.lhs.chars ++
    match r.rhs with
    | [] => []
    | goals => " :- ".toList ++ joinWith [',', ' '] (goals.map Goal.chars)

/-- The text of the features of a rule without the braces around them. -/
def blockChars (r : Rule) : List Char := joinWith [',', ' '] (r.features.map FeatureTemplate.chars)

/-- The text of a rule without the point at its end. -/
def clauseChars (r : Rule) : List Char :=
  if r.features = [] then r.logicChars else r.logicChars ++ [' ', '\x7b'] ++ r.blockChars ++ ['\x7d']

theorem chars_eq (r : Rule) : r.chars = r.clauseChars ++ ['.'] := by
  obtain ⟨lhs, rhs, features⟩ := r
  cases features with
  | nil => exact congrArg (· ++ ['.']) (List.append_nil _)
  | cons f rest =>
    have text (logic block : List Char) : logic ++ (' ' :: '\x7b' :: block ++ ['\x7d']) =
        logic ++ [' ', '\x7b'] ++ block ++ ['\x7d'] := by
      simp only [List.append_assoc, List.cons_append, List.nil_append]
    exact congrArg (· ++ ['.']) (text _ _)

/-- The head and body of a clause, and the blocks behind them. -/
private def parts (clause : List Char) : Except ClauseFault (List Char × List (List Char)) :=
  match breakTop '\x7b' 0 clause with
  | none => .ok (clause, [])
  | some (logic, rest) => (featureBlocks (some []) rest).map (logic, ·)

/-- The texts of the head and of the body of a clause. -/
private def arrowParts (logic : List Char) : List Char × List Char :=
  (cutAt [':', '-'] logic).getD (logic, [])

/-- Reads a clause from its parts. -/
private def readParts (clause head body : List Char) (blocks : List (List Char)) : Reading Rule := do
  let lhs ← Goal.read head
  let rhs ← Goal.readAll body
  let features ← (blocks.flatMap FeatureTemplate.blockItems).mapM fun item =>
    FeatureTemplate.read clause item.1 item.2
  pure { lhs := lhs, rhs := rhs, features := features }

private theorem read_eq (clause : List Char) : Rule.read clause =
    match parts clause with
    | .ok (logic, blocks) => readParts clause (arrowParts logic).1 (arrowParts logic).2 blocks
    | .error fault => throw (.badClause (String.ofList clause) fault) := by
  unfold Rule.read parts readParts arrowParts
  simp only [← FeatureTemplate.readBlocks_eq, bind_map_left, breakArrow_eq_cutAt]
  cases breakTop '\x7b' 0 clause with
  | none =>
    simp only [pure_bind]
    cases cutAt [':', '-'] clause <;> rfl
  | some behind =>
    simp only
    cases featureBlocks (some []) behind.2 with
    | error fault => rfl
    | ok blocks =>
      simp only [pure_bind, Except.map]
      cases cutAt [':', '-'] behind.1 <;> rfl

/-- A rule whose text says what it is. -/
structure Printable (r : Rule) : Prop where
  /-- Its line is no comment. -/
  head : ∀ c ∈ ['#', '%'], r.lhs.functor.toList.head? ≠ some c
  /-- No point in front of a blank ends its clause. -/
  points : ∀ g ∈ r.lhs :: r.rhs, g.args = [] → g.functor.toList.getLast? ≠ some '.'
  /-- No brace in a name opens or ends a block. -/
  unbraced : ∀ g ∈ r.goals, g.Unbraced
  /-- Weights are written as numbers and as variables. -/
  weights : ∀ f ∈ r.features, f.weight.Plain
  /-- A feature that ranges over goals stands alone. -/
  single : (∀ f ∈ r.features, f.findall = []) ∨ ∃ f, r.features = [f]

/-- What is known of the goals of a printable rule that has been read. -/
private structure Plain (r : Rule) : Prop where
  lhs : r.lhs.Plain
  noArrow : ¬[':', '-'] <:+: r.lhs.chars
  rhs : ∀ g ∈ r.rhs, g.Plain
  features : ∀ f ∈ r.features, f.Plain

/-- A rule is read again from texts of its parts. -/
private theorem readParts_again {clause head body : List Char} {blocks : List (List Char)} {s s' : Scope}
    (named : s.Named) (noArrow : ¬[':', '-'] <:+: head)
    (read : readParts clause head body blocks s = .ok (r, s')) :
    (r.Printable → r.Plain) ∧ ∀ clause' head' body' blocks', trim head' = r.lhs.chars →
      Goal.AllGiven r.rhs body' →
        List.Forall₂ FeatureTemplate.GivenItem r.features (blocks'.flatMap FeatureTemplate.blockItems) →
          readParts clause' head' body' blocks' s = .ok (r, s') := by
  obtain ⟨⟨lhs, s₁⟩, readHead, read⟩ := Except.bind_eq_ok.1 read
  obtain ⟨⟨rhs, s₂⟩, readBody, read⟩ := Except.bind_eq_ok.1 read
  obtain ⟨⟨features, s₃⟩, readFeatures, equal⟩ := Except.bind_eq_ok.1 read
  cases equal
  obtain ⟨isHead, named₁, headAgain⟩ := Goal.read_again named readHead
  obtain ⟨areBody, named₂, bodyAgain⟩ := Goal.readAll_again named₁ readBody
  have each (clause' : List Char) : ∀ item ∈ blocks.flatMap FeatureTemplate.blockItems, ∀ s f s', s.Named →
      FeatureTemplate.read clause item.1 item.2 s = .ok (f, s') →
        ((∀ g ∈ f.goals, g.Unbraced) → f.weight.Plain → f.Plain) ∧ s'.Named ∧
          ∀ item', f.GivenItem item' →
            FeatureTemplate.read clause' item'.1 item'.2 s = .ok (f, s') := by
    intro item _ s f s' named done
    obtain ⟨plain, named', again⟩ := FeatureTemplate.read_again named done
    exact ⟨plain, named', fun item' given => again _ _ _ given.1 given.2.1 given.2.2⟩
  obtain ⟨areFeatures, -, -⟩ := Reading.mapM_again (each []) named₂ readFeatures
  refine ⟨fun printable => ⟨?_, isHead.noArrow noArrow, ?_, ?_⟩, ?_⟩
  · exact isHead.plain (printable.unbraced _ (lhs_mem_goals _))
  · intro g member
    obtain ⟨piece, isFrom⟩ := areBody g member
    exact isFrom.plain (printable.unbraced g (mem_goals_of_mem_rhs member))
  · intro f member
    obtain ⟨item, -, plain⟩ := exists_of_forall₂ areFeatures member
    exact plain (fun g inGoals => printable.unbraced g (mem_goals_of_feature member inGoals))
      (printable.weights f member)
  · rintro clause' head' body' blocks' isHead' ⟨texts, areTexts, rfl⟩ areItems
    obtain ⟨-, -, featuresAgain⟩ := Reading.mapM_again (each clause') named₂ readFeatures
    exact Except.bind_eq_ok.2 ⟨_, headAgain head' isHead', Except.bind_eq_ok.2
      ⟨_, bodyAgain texts areTexts, Except.bind_eq_ok.2 ⟨_, featuresAgain _ areItems, rfl⟩⟩⟩

/-- What is kept when texts are put together holds of head and body. -/
theorem logicChars_induction (P : List Char → Prop) (nil : P []) (append : ∀ s t, P s → P t → P (s ++ t))
    (comma : P [',', ' ']) (arrow : P " :- ".toList) (goals : ∀ g ∈ r.lhs :: r.rhs, P g.chars) :
    P r.logicChars := by
  obtain ⟨head, body⟩ := List.forall_mem_cons.1 goals
  refine append _ _ head ?_
  split
  · exact nil
  · exact append _ _ arrow (Goal.joinWith_induction P nil append comma body)

/-- It holds of the block if it holds of the features. -/
theorem blockChars_induction (P : List Char → Prop) (nil : P []) (append : ∀ s t, P s → P t → P (s ++ t))
    (comma : P [',', ' ']) (features : ∀ f ∈ r.features, P f.chars) : P r.blockChars := by
  refine Text.joinWith_induction P nil (fun s t first second => append _ _ (append _ _ first comma) second) ?_
  intro piece isPiece
  obtain ⟨f, isFeature, rfl⟩ := List.mem_map.1 isPiece
  exact features f isFeature

/-- The text of head and body is not cut at a brace. -/
private theorem Plain.level_logicChars (plain : r.Plain) : Level parens '\x7b' 0 r.logicChars := by
  refine logicChars_induction (Level parens '\x7b' 0) rfl (fun _ _ => Level.append) (by rfl) (by rfl) ?_
  intro g isGoal
  exact (List.forall_mem_cons.2 ⟨plain.lhs, plain.rhs⟩ g isGoal).level_parens (by decide)

/-- The block of a rule ends at the brace behind it. -/
private theorem Plain.not_mem_blockChars (plain : r.Plain) : '\x7d' ∉ r.blockChars := by
  have append (s t : List Char) : '\x7d' ∉ s → '\x7d' ∉ t → '\x7d' ∉ s ++ t := List.not_mem_append
  refine blockChars_induction ('\x7d' ∉ ·) List.not_mem_nil append (by decide) fun f isFeature => ?_
  have ofFeature := plain.features f isFeature
  refine FeatureTemplate.chars_induction ('\x7d' ∉ ·) List.not_mem_nil append (by decide) (by decide) ?_ ?_
  · exact List.forall_mem_cons.2 ⟨ofFeature.goal.not_mem_chars (by decide), fun g isGoal =>
      (ofFeature.findall g isGoal).not_mem_chars (by decide)⟩
  · exact fun member => ofFeature.weight.flat.ne (by decide) _ member rfl

/-- No point ends a clause in the text of a printable rule. -/
private theorem Plain.depthBehindPoints_clauseChars (plain : r.Plain)
    (points : ∀ g ∈ r.lhs :: r.rhs, g.args = [] → g.functor.toList.getLast? ≠ some '.') :
    depthBehindPoints 0 r.clauseChars = some 0 := by
  have logic : Steady 0 r.logicChars := by
    refine logicChars_induction (Steady 0) ⟨rfl, .inl (by decide)⟩ (fun _ _ => Steady.append)
      ⟨rfl, .inl (by decide)⟩ ⟨rfl, .inl (by decide)⟩ fun g isGoal => ?_
    have ofGoal := List.forall_mem_cons.2 ⟨plain.lhs, plain.rhs⟩ g isGoal
    exact ⟨ofGoal.depthBehindPoints_chars le_rfl, .inl (Goal.Plain.getLast?_chars (points g isGoal))⟩
  -- within the braces the depth is one, where no point ends a clause
  have block : Steady 1 r.blockChars := by
    have append (s t : List Char) : Steady 1 s → Steady 1 t → Steady 1 (s ++ t) := Steady.append
    refine blockChars_induction (Steady 1) ⟨rfl, .inr (by decide)⟩ append
      ⟨rfl, .inr (by decide)⟩ fun f isFeature => ?_
    have ofFeature := plain.features f isFeature
    refine FeatureTemplate.chars_induction (Steady 1) ⟨rfl, .inr (by decide)⟩ append
      ⟨rfl, .inr (by decide)⟩ ⟨rfl, .inr (by decide)⟩ (fun g isGoal => ⟨?_, .inr (by decide)⟩)
      ⟨depthBehindPoints_of_flat ofFeature.weight.flat.nesting_eq (.inl (by decide)), .inr (by decide)⟩
    have ofGoal := List.forall_mem_cons.2 ⟨ofFeature.goal, ofFeature.findall⟩ g isGoal
    exact ofGoal.depthBehindPoints_chars (by decide)
  have opened : depthBehindPoints 0 [' ', '\x7b'] = some 1 := rfl
  have closed : depthBehindPoints 1 ['\x7d'] = some 0 := rfl
  unfold clauseChars
  split
  · exact logic.1
  · rw [List.append_assoc, List.append_assoc, depthBehindPoints_append logic.1 (logic.2.imp_right .inl),
      depthBehindPoints_append opened (.inl (by decide)),
      depthBehindPoints_append block.1 (block.2.imp_right .inl), closed]

/-- The text of a rule without its point is taken apart. -/
private theorem Plain.parts_clauseChars (plain : r.Plain) : parts r.clauseChars =
    .ok (if r.features = [] then (r.logicChars, []) else (r.logicChars ++ [' '], [r.blockChars])) := by
  unfold parts clauseChars
  by_cases none : r.features = []
  · rw [if_pos none, if_pos none, breakTop_of_level plain.level_logicChars]
  · have level : Level parens '\x7b' 0 (r.logicChars ++ [' ']) := plain.level_logicChars.append (by rfl)
    have text : r.logicChars ++ [' ', '\x7b'] ++ r.blockChars ++ ['\x7d'] =
        r.logicChars ++ [' '] ++ '\x7b' :: (r.blockChars ++ ['\x7d']) := by
      simp only [List.append_assoc, List.cons_append, List.nil_append]
    rw [if_neg none, if_neg none, text, breakTop_append level]
    simp only
    rw [featureBlocks_of_inside plain.not_mem_blockChars]
    rfl

/-- Its head and its body are found again. -/
private theorem Plain.arrowParts_logicChars (plain : r.Plain) {back : List Char}
    (after : ∀ c ∈ back, isBlank c = true) :
    trim (arrowParts (r.logicChars ++ back)).1 = r.lhs.chars ∧
      Goal.AllGiven r.rhs (arrowParts (r.logicChars ++ back)).2 := by
  have trimmed {back : List Char} (after : ∀ c ∈ back, isBlank c = true) :
      trim (r.lhs.chars ++ back) = r.lhs.chars :=
    (Text.Padded.back after _).trim_eq.trans plain.lhs.neat.trim_chars
  by_cases none : r.rhs = []
  · -- neither the head nor the blanks behind it hold an arrow
    have logic : r.logicChars = r.lhs.chars := by
      rw [logicChars, none, List.append_nil]
    have noArrow : ¬[':', '-'] <:+: r.lhs.chars ++ back := by
      intro isInfix
      rcases pair_infix_append isInfix with inHead | inBack | ⟨-, isFirst⟩
      · exact plain.noArrow inHead
      · exact absurd (after ':' (inBack.subset (by simp))) (by decide)
      · exact absurd (after '-' (List.mem_of_head? isFirst)) (by decide)
    have cut : cutAt [':', '-'] (r.lhs.chars ++ back) = .none := by
      rwa [← isSome_cutAt_iff, Option.not_isSome_iff_eq_none] at noArrow
    rw [logic, arrowParts, cut]
    exact ⟨trimmed after, none ▸ ⟨[], .nil, rfl⟩⟩
  · -- the first arrow is the one behind the head, whatever stands in the body
    have text : r.logicChars ++ back = (r.lhs.chars ++ [' ']) ++ [':', '-'] ++
        ([' '] ++ joinWith [',', ' '] (r.rhs.map Goal.chars) ++ back) := by
      unfold logicChars
      split
      · contradiction
      · simp only [List.append_assoc]
        rfl
    have noArrow : ¬[':', '-'] <:+: r.lhs.chars ++ [' '] ++ [':'] := by
      rw [List.append_assoc]
      refine not_infix_append_cons (by decide) (by decide) plain.noArrow fun isInfix => ?_
      exact absurd isInfix.length_le (by decide)
    rw [text, arrowParts, cutAt_arrow noArrow]
    exact ⟨trimmed (List.forall_mem_singleton.2 rfl), Goal.allGiven plain.rhs none after⟩

/-- There is no arrow in the head. -/
private theorem not_infix_arrowParts (logic : List Char) : ¬[':', '-'] <:+: (arrowParts logic).1 := by
  unfold arrowParts
  cases cut : cutAt [':', '-'] logic with
  | none => rwa [← Option.not_isSome_iff_eq_none, isSome_cutAt_iff] at cut
  | some found => exact not_infix_of_cutAt (List.cons_ne_nil _ _) cut

/-- A printable rule that has been read is read again from its text without the point at its end. -/
private theorem read_clauseChars {clause : List Char} {s s' : Scope} (named : s.Named)
    (read : Rule.read clause s = .ok (r, s')) (printable : r.Printable) :
    r.Plain ∧ Rule.read r.clauseChars s = .ok (r, s') := by
  rw [read_eq] at read
  split at read
  · rename_i logic blocks isParts
    obtain ⟨isPlain, again⟩ := readParts_again named (not_infix_arrowParts logic) read
    have plain := isPlain printable
    refine ⟨plain, ?_⟩
    rw [read_eq, plain.parts_clauseChars]
    by_cases none : r.features = []
    · obtain ⟨head, body⟩ := plain.arrowParts_logicChars (List.forall_mem_nil _)
      rw [List.append_nil] at head body
      rw [if_pos none]
      exact again _ _ _ [] head body (none ▸ .nil)
    · obtain ⟨head, body⟩ := plain.arrowParts_logicChars
        (List.forall_mem_singleton.2 rfl : ∀ c ∈ [' '], isBlank c = true)
      rw [if_neg none]
      refine again _ _ _ [r.blockChars] head body ?_
      rw [List.flatMap_singleton]
      exact FeatureTemplate.blockItems_again plain.features none printable.single
  · cases read

/-! ### Rule files -/

/-- The text of a rule without its point stands on one line. -/
theorem legible_clauseChars (neat : ∀ g ∈ r.goals, g.Neat)
    (weights : ∀ f ∈ r.features, ∀ v, f.weight = .bound v → Text.OnLine v.name) :
    Legible (String.ofList r.clauseChars) := by
  have head : Legible r.lhs.text := (neat _ (lhs_mem_goals r)).legible
  have logic : Legible (String.ofList r.logicChars) := by
    by_cases none : r.rhs = []
    · have text : String.ofList r.logicChars = r.lhs.text := by
        rw [logicChars, none, List.append_nil, Goal.text]
      exact text ▸ head
    · have text : String.ofList r.logicChars =
          r.lhs.text ++ " :- " ++ ", ".intercalate (r.rhs.map Goal.text) := by
        apply String.toList_injective
        have same : (r.rhs.map Goal.text).map String.toList = r.rhs.map Goal.chars := by
          rw [List.map_map]
          exact List.map_congr_left fun g _ => String.toList_ofList
        rw [String.toList_append, String.toList_append, String.toList_intercalate, String.toList_ofList, same,
          Goal.text, String.toList_ofList, logicChars, List.append_assoc]
        split
        · contradiction
        · rw [Text.joinWith_eq_intercalate]
          rfl
      rw [text]
      refine head.append (by decide)
        (Legible.intercalate (by decide) (fun name member => ?_) (mt List.map_eq_nil_iff.1 none))
      obtain ⟨g, isGoal, rfl⟩ := List.mem_map.1 member
      exact (neat g (mem_goals_of_mem_rhs isGoal)).legible
  unfold clauseChars
  split
  · exact logic
  · have line : '\n' ∉ r.blockChars := by
      refine blockChars_induction ('\n' ∉ ·) List.not_mem_nil (fun _ _ => List.not_mem_append) (by decide)
        fun f isFeature => ?_
      exact FeatureTemplate.line (fun g member => neat g (mem_goals_of_feature isFeature member))
        (weights f isFeature)
    have text : String.ofList (r.logicChars ++ [' ', '\x7b'] ++ r.blockChars ++ ['\x7d']) =
        String.ofList r.logicChars ++ String.ofList (" \x7b".toList ++ r.blockChars) ++ "\x7d" := by
      apply String.toList_injective
      simp only [String.toList_append, String.toList_ofList, List.append_assoc]
      rfl
    rw [text]
    refine logic.append ?_ ⟨by decide, ⟨'\x7d', rfl, by decide⟩, ⟨'\x7d', rfl, by decide⟩⟩
    rw [String.toList_ofList, List.mem_append, not_or]
    exact ⟨by decide, line⟩

/-- The text of a rule stands on one line. -/
theorem legible_text (neat : ∀ g ∈ r.goals, g.Neat)
    (weights : ∀ f ∈ r.features, ∀ v, f.weight = .bound v → Text.OnLine v.name) : Legible r.text := by
  have text : r.text = String.ofList r.clauseChars ++ "" ++ "." := by
    apply String.toList_injective
    rw [Rule.text, String.toList_ofList, chars_eq, String.append_empty, String.toList_append,
      String.toList_ofList]
    rfl
  rw [text]
  exact (legible_clauseChars neat weights).append (by decide)
    ⟨by decide, ⟨'.', rfl, by decide⟩, ⟨'.', rfl, by decide⟩⟩

/-- A rule begins with the functor of its head. -/
theorem head?_chars (neat : r.lhs.Neat) : r.chars.head? = r.lhs.functor.toList.head? := by
  obtain ⟨c, isFirst, -⟩ := neat.functor.legible.first
  have begins : r.lhs.chars.head? = some c := by
    unfold Goal.chars
    split
    · exact isFirst
    · simp only [List.append_assoc, List.head?_append, isFirst, Option.some_or]
  rw [Rule.chars, isFirst]
  simp only [List.append_assoc, List.head?_append, begins, Option.some_or]

/-- Rules that have been read are read again from their texts if all of them are printable: there are as many,
in the same order, with the same variables. -/
theorem parseAll?_texts {source : String} {rules : List Rule} (parsed : parseAll? source = .ok rules)
    (printable : ∀ r ∈ rules, r.Printable) :
    parseAll? (String.join ((rules.map text).map (· ++ "\n"))) = .ok rules := by
  have neat := neat_of_parseAll? parsed
  unfold parseAll? at parsed ⊢
  have known : ∀ r ∈ rules, r.Plain ∧ (Rule.read r.clauseChars).run' .empty = .ok r := by
    intro r member
    obtain ⟨clause, -, read⟩ := Except.exists_of_mapM parsed member
    obtain ⟨⟨r, s⟩, ran, rfl⟩ := Except.map_eq_ok.1 read
    obtain ⟨plain, again⟩ := read_clauseChars Scope.named_empty ran (printable r member)
    exact ⟨plain, Except.map_eq_ok.2 ⟨_, again, rfl⟩⟩
  have weights : ∀ r ∈ rules, ∀ f ∈ r.features, ∀ v, f.weight = .bound v → Text.OnLine v.name := by
    intro r member f isFeature v given inName
    have functor := ((known r member).1.features f isFeature).weight.functor
    rw [given] at functor
    exact absurd (functor '\n' inName) (by decide)
  -- the lines are kept, the clauses are found in them, and each of them is read again
  have lines : withoutComments (String.join ((rules.map text).map (· ++ "\n"))).toList =
      joinWith ['\n'] ((rules.map clauseChars).map (· ++ ['.'])) := by
    rw [withoutComments_lines (fun t isText => ?_) fun t isText => ?_, List.map_map, List.map_map]
    · exact congrArg _ (List.map_congr_left fun r _ => (String.toList_ofList.trans r.chars_eq))
    · obtain ⟨r, member, rfl⟩ := List.mem_map.1 isText
      exact legible_text (neat r member) (weights r member)
    · obtain ⟨r, member, rfl⟩ := List.mem_map.1 isText
      rw [text, String.toList_ofList, head?_chars (neat r member _ (lhs_mem_goals r))]
      exact (printable r member).head
  have found : clauses (joinWith ['\n'] ((rules.map clauseChars).map (· ++ ['.']))) =
      rules.map clauseChars := by
    refine clauses_lines (fun t isText => ?_) (fun t isText => ?_) (.inl rfl)
    · obtain ⟨r, member, rfl⟩ := List.mem_map.1 isText
      exact (known r member).1.depthBehindPoints_clauseChars (printable r member).points
    · obtain ⟨r, member, rfl⟩ := List.mem_map.1 isText
      have legible := legible_clauseChars (neat r member) (weights r member)
      have trimmed := legible.trim_eq
      have filled := legible.ne_empty
      rw [String.toList_ofList] at trimmed
      refine ⟨trimmed, fun none => ?_⟩
      rw [none] at filled
      cases filled
  rw [lines, found]
  have same : List.Forall₂ (fun chars r => (Rule.read chars).run' .empty = (pure r : Except Error Rule))
      (rules.map clauseChars) rules :=
    List.forall₂_map_left_iff.2 (List.forall₂_same.2 fun r member => (known r member).2)
  have all : rules.mapM (fun r => (pure (id r) : Except Error Rule)) = pure (rules.map id) := List.mapM_pure
  rw [List.map_id] at all
  exact (Except.mapM_congr same).trans all

-- a feature that ranges over goals takes the feature behind it for one of them
example :
    (parseAll? "p :- q \x7ba : b\x7d \x7bc\x7d.").toOption.map (List.map fun r => (r.text, r.features.length)) =
        some [("p :- q \x7ba : b, c\x7d.", 2)] ∧
      (parseAll? "p :- q \x7ba : b, c\x7d.").toOption.map (List.map (·.features.length)) = some [1] := by
  decide +kernel

end Rule

end ProofWalk
