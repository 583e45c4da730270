import ProofWalk.Proofs.Logic.Scanning
import ProofWalk.Proofs.Logic.Words

/-!
# Goals that are read again

Goals are cut apart at the commas outside of parentheses and braces, while the arguments of a goal are cut
apart at every comma. A goal that has been read is written without the blanks of its text. That changes no
depth, so goals are cut at the same places again, whatever braces stand in their arguments, and as names are
met in the same order they get the same variables.

## Main results

* `Goal.read_again`, `Goal.readAll_again` — goals that have been read are read again from their texts
* `LabelledExample.parse?_text_of_parse?` — examples that have been read are read again from their texts
-/

namespace ProofWalk

open Text (isBlank isAllBlank trim trimStart trimEnd splitAt joinWith)

/-! ### The parts of a goal -/

namespace Scan

/-- A functor with what stands behind it in parentheses. -/
def call (functor : List Char) : Option (List Char) → List Char
  | none => functor
  | some inner => functor ++ '(' :: inner ++ [')']

/-- A blank is in no functor. -/
theorem isFunctorChar_of_isBlank {c : Char} (blank : isBlank c = true) : isFunctorChar c = false := by
  rw [isFunctorChar, blank]
  rfl

theorem isBlank_of_isFunctorChar {c : Char} (isFunctor : isFunctorChar c = true) : isBlank c = false := by
  cases blank : isBlank c with
  | false => rfl
  | true =>
    rw [isFunctorChar_of_isBlank blank] at isFunctor
    cases isFunctor

/-- Behind a goal without parentheses are blanks. -/
theorem trim_of_goalParts? {s functor : List Char} (parts : goalParts? s = some (functor, none)) :
    trim ((trimStart s).dropWhile isFunctorChar) = [] := by
  unfold goalParts? at parts
  simp only at parts
  split at parts
  · cases parts
  split at parts
  · assumption
  · split at parts
    · split at parts <;> cases parts
    · cases parts
  · cases parts

/-- Only blanks are dropped from a goal that is taken apart. -/
theorem alike_of_goalParts? {s functor : List Char} {inner : Option (List Char)}
    (parts : goalParts? s = some (functor, inner)) :
    functor ≠ [] ∧ (∀ c ∈ functor, isFunctorChar c = true) ∧ Alike s (call functor inner) := by
  obtain ⟨taken, nonempty, inside⟩ := cases_of_goalParts? parts
  refine ⟨nonempty, fun c member => ?_, ?_⟩
  · rw [taken] at member
    exact List.mem_takeWhile_imp member
  have start : Alike s (trimStart s) := by
    have blank : ∀ c ∈ s.takeWhile isBlank, isBlank c = true := fun c => List.mem_takeWhile_imp
    have padded := Text.Padded.front blank (trimStart s)
    rw [trimStart, List.takeWhile_append_dropWhile] at padded
    exact .of_padded padded
  refine start.trans ?_
  have behind := (Alike.refl functor).append (Alike.trim ((trimStart s).dropWhile isFunctorChar))
  rw [taken, List.takeWhile_append_dropWhile, ← taken] at behind
  cases inner with
  | none =>
    rw [trim_of_goalParts? parts, List.append_nil] at behind
    exact behind
  | some inner =>
    rw [(inside inner rfl).2] at behind
    rw [call, List.append_assoc, List.cons_append]
    exact behind

/-- What stands between the parentheses of a goal stands in its text. -/
theorem infix_of_goalParts? {s functor inner : List Char} (parts : goalParts? s = some (functor, some inner)) :
    inner <:+: s := by
  obtain ⟨-, -, inside⟩ := cases_of_goalParts? parts
  have between : inner <:+: trim ((trimStart s).dropWhile isFunctorChar) := by
    rw [(inside inner rfl).2]
    exact ⟨['('], [')'], rfl⟩
  exact (between.trans (Text.infix_trim _)).trans
    ((List.dropWhile_suffix _).trans (List.dropWhile_suffix _)).isInfix

/-- A goal between blanks is taken apart. -/
theorem goalParts?_of_padded {functor text : List Char} {inner : Option (List Char)} (some : functor ≠ [])
    (isFunctor : ∀ c ∈ functor, isFunctorChar c = true) (line : ∀ text, inner = .some text → '\n' ∉ text)
    (padded : Text.Padded (call functor inner) text) : goalParts? text = .some (functor, inner) := by
  obtain ⟨front, back, rfl, before, after⟩ := padded
  -- what stands behind the functor
  obtain ⟨behind, isCall, stops⟩ : ∃ behind, call functor inner ++ back = functor ++ behind ∧
      behind.takeWhile isFunctorChar = [] ∧ behind.dropWhile isFunctorChar = behind ∧
      trim behind = match inner with
        | none => []
        | .some text => '(' :: (text ++ [')']) := by
    cases inner with
    | none =>
      refine ⟨back, rfl, ?_, ?_, ?_⟩
      · cases back with
        | nil => rfl
        | cons c rest =>
          have blank := isFunctorChar_of_isBlank (after c (List.mem_cons_self ..))
          exact List.takeWhile_cons_of_neg (by rw [blank]; exact Bool.false_ne_true)
      · cases back with
        | nil => rfl
        | cons c rest =>
          have blank := isFunctorChar_of_isBlank (after c (List.mem_cons_self ..))
          exact List.dropWhile_cons_of_neg (by rw [blank]; exact Bool.false_ne_true)
      · exact Text.trim_of_isAllBlank (List.all_eq_true.2 after)
    | some text =>
      refine ⟨'(' :: (text ++ [')']) ++ back, ?_, rfl, rfl, ?_⟩
      · simp only [call, List.append_assoc, List.cons_append]
      · refine (Text.Padded.back after _).trim_eq_self ⟨'(', rfl, by decide⟩ ⟨')', ?_, by decide⟩
        rw [← List.cons_append, List.getLast?_concat]
  obtain ⟨taken, dropped, trimmed⟩ := stops
  have start : trimStart (front ++ call functor inner ++ back) = functor ++ behind := by
    rw [List.append_assoc, Text.trimStart_blanks_append before, isCall]
    have first : (functor ++ behind).head? = .some (functor.head some) := by
      rw [List.head?_append_of_ne_nil _ some, List.head?_eq_some_head some]
    exact Text.dropWhile_of_head? first (isBlank_of_isFunctorChar (isFunctor _ (List.head_mem some)))
  unfold goalParts?
  simp only [start]
  rw [List.takeWhile_append_of_pos isFunctor, List.dropWhile_append_of_pos isFunctor, taken, dropped,
    trimmed, List.append_nil, if_neg (by rwa [List.isEmpty_iff])]
  cases inner with
  | none => rfl
  | some text =>
    have free : text.reverse.contains '\n' = false := by
      rw [Bool.eq_false_iff, Ne, List.contains_iff_mem, List.mem_reverse]
      exact line text rfl
    simp only [List.reverse_append, List.reverse_singleton, List.singleton_append, free,
      Bool.false_eq_true, if_false, List.reverse_reverse]

end Scan

/-! ### Reading -/

/-- What is read from a list is read again from the texts of what has been read. -/
theorem Reading.mapM_again {α β γ : Type} {isScope : Scope → Prop} {f : α → Reading β} {f' : γ → Reading β}
    {R : α → β → Prop} {isText : β → γ → Prop} {as : List α}
    (each : ∀ a ∈ as, ∀ s b s', isScope s → f a s = .ok (b, s') →
      R a b ∧ isScope s' ∧ ∀ c, isText b c → f' c s = .ok (b, s'))
    {s s' : Scope} {bs : List β} (start : isScope s) (read : as.mapM f s = .ok (bs, s')) :
    List.Forall₂ R as bs ∧ isScope s' ∧
      ∀ cs, List.Forall₂ isText bs cs → cs.mapM f' s = .ok (bs, s') := by
  induction as generalizing s bs with
  | nil =>
    cases read
    refine ⟨.nil, start, fun cs areTexts => ?_⟩
    cases areTexts
    rfl
  | cons a rest ih =>
    rw [List.mapM_cons] at read
    obtain ⟨⟨b, s₁⟩, first, read⟩ := Except.bind_eq_ok.1 read
    obtain ⟨⟨others, s₂⟩, behind, equal⟩ := Except.bind_eq_ok.1 read
    cases equal
    obtain ⟨related, start₁, again⟩ := each a (by simp) s b s₁ start first
    obtain ⟨allRelated, start₂, allAgain⟩ := ih (fun a member => each a (by simp [member])) start₁ behind
    refine ⟨.cons related allRelated, start₂, fun cs areTexts => ?_⟩
    cases areTexts with
    | cons isText areTexts =>
      rw [List.mapM_cons]
      exact Except.bind_eq_ok.2 ⟨_, again _ isText, Except.bind_eq_ok.2 ⟨_, allAgain _ areTexts, rfl⟩⟩

open Scan

/-- Blanks around an argument are not read. -/
theorem Term.read_of_trim {text text' : List Char} (same : trim text' = trim text) :
    Term.read text' = Term.read text := by
  unfold Term.read
  rw [same]

/-- The text of a list is not blank if its first piece is not. -/
theorem Text.isAllBlank_joinWith {sep piece : List Char} (filled : isAllBlank piece = false)
    (pieces : List (List Char)) : isAllBlank (joinWith sep (piece :: pieces)) = false := by
  cases pieces with
  | nil => exact filled
  | cons next rest =>
    change isAllBlank (piece ++ sep ++ joinWith sep (next :: rest)) = false
    rw [isAllBlank, List.all_append, List.all_append]
    change (isAllBlank piece && _ && _) = false
    rw [filled]
    rfl

/-- A legible name is not blank. -/
theorem Legible.isAllBlank_eq {name : String} (legible : Legible name) :
    isAllBlank name.toList = false := by
  obtain ⟨c, isFirst, ink⟩ := legible.first
  exact List.all_eq_false.2 ⟨c, List.mem_of_head? isFirst, by rw [ink]; exact Bool.false_ne_true⟩

/-- Reads an argument that is filled and holds no parentheses. -/
private def readArg (text arg : List Char) : Reading Term := do
  if isAllBlank arg || arg.contains '(' || arg.contains ')' then
    throw (.goalSyntax (String.ofList (trim text)) (.argument (String.ofList (trim arg))))
  Term.read arg

private theorem isBad_iff (arg : List Char) :
    (isAllBlank arg || arg.contains '(' || arg.contains ')') = true ↔
      isAllBlank arg = true ∨ '(' ∈ arg ∨ ')' ∈ arg := by
  simp only [Bool.or_eq_true, List.contains_iff_mem, or_assoc]

/-- An argument that has been read stands in its text, has a legible name, and holds none of the characters
that an argument ends at. -/
structure Term.From (t : Term) (text : List Char) : Prop where
  inside : t.chars <:+: text
  legible : Legible t.name
  apart : ∀ c ∈ ['(', ',', ')'], c ∉ t.chars

/-- An argument is read again without the blanks around it. -/
private theorem readArg_again (text text' : List Char) {arg : List Char} {s s' : Scope} {t : Term}
    (line : '\n' ∉ arg) (comma : ',' ∉ arg) (named : s.Named) (read : readArg text arg s = .ok (t, s')) :
    (t.chars = trim arg ∧ t.From arg) ∧ s'.Named ∧
      ∀ arg', arg' = t.chars → readArg text' arg' s = .ok (t, s') := by
  unfold readArg at read ⊢
  split at read
  · cases read
  rename_i good
  have done : Term.read arg s = .ok (t, s') := read
  rw [isBad_iff, not_or, not_or, Bool.not_eq_true] at good
  obtain ⟨filled, noOpen, noClose⟩ := good
  obtain ⟨isName, named'⟩ := Term.name_read arg s t s' named done
  have chars : t.chars = trim arg := by rw [Term.chars_eq, isName, String.toList_ofList]
  have legible : Legible t.name := isName ▸ Text.legible_trim line filled
  have inside : t.chars <:+: arg := chars ▸ Text.infix_trim arg
  have free {c : Char} (free : c ∉ arg) : c ∉ t.chars := fun member => free (inside.subset member)
  have apart : ∀ c ∈ ['(', ',', ')'], c ∉ t.chars := by
    simp only [List.forall_mem_cons]
    exact ⟨free noOpen, free comma, free noClose, List.forall_mem_nil _⟩
  refine ⟨⟨chars, inside, legible, apart⟩, named', ?_⟩
  rintro arg' rfl
  have again : trim t.chars = trim arg := by rw [← chars, Term.chars_eq, legible.trim_eq]
  have filled' : isAllBlank t.chars = false := Term.chars_eq t ▸ legible.isAllBlank_eq
  rw [if_neg, Term.read_of_trim again]
  · exact done
  · rw [isBad_iff, not_or, not_or, Bool.not_eq_true]
    exact ⟨filled', free noOpen, free noClose⟩

/-- What stands between the parentheses when a goal with some arguments is written. -/
private def innerText (args : List Term) : Option (List Char) :=
  if args = [] then none else some (joinWith [','] (args.map Term.chars))

/-- There are no arguments between blank parentheses, and some between others. -/
private theorem cases_of_readArgs {text inner : List Char} {s s' : Scope} {args : List Term}
    (read : Goal.readArgs text inner s = .ok (args, s')) :
    (isAllBlank inner = true ∧ args = [] ∧ s' = s) ∨
      args ≠ [] ∧ (splitAt ',' inner).mapM (readArg text) s = .ok (args, s') := by
  unfold Goal.readArgs at read
  split at read
  · rename_i blank
    cases read
    exact .inl ⟨blank, rfl, rfl⟩
  · refine .inr ⟨?_, read⟩
    cases pieces : splitAt ',' inner with
    | nil => exact absurd pieces (Text.splitAt_ne_nil ',' inner)
    | cons piece rest =>
      rw [pieces, List.mapM_cons] at read
      obtain ⟨⟨t, s₁⟩, -, read⟩ := Except.bind_eq_ok.1 read
      obtain ⟨⟨others, s₂⟩, -, equal⟩ := Except.bind_eq_ok.1 read
      cases equal
      exact List.cons_ne_nil _ _

/-- Arguments are read again from their texts. -/
private theorem readArgs_again {text inner : List Char} {s s' : Scope} {args : List Term} (named : s.Named)
    (line : '\n' ∉ inner) (some : args ≠ [])
    (read : (splitAt ',' inner).mapM (readArg text) s = .ok (args, s')) :
    (∀ t ∈ args, t.From inner) ∧ s'.Named ∧ Alike inner (joinWith [','] (args.map Term.chars)) ∧
      ∀ text', Goal.readArgs text' (joinWith [','] (args.map Term.chars)) s = .ok (args, s') := by
  have each (text' : List Char) : ∀ arg ∈ splitAt ',' inner, ∀ s t s', s.Named →
      readArg text arg s = .ok (t, s') → (t.chars = trim arg ∧ t.From inner) ∧ s'.Named ∧
        ∀ arg', arg' = t.chars → readArg text' arg' s = .ok (t, s') := by
    intro arg isPiece s t s' named done
    have inInner := Text.infix_of_mem_splitAt isPiece
    obtain ⟨⟨chars, inside, legible, apart⟩, named', again⟩ :=
      readArg_again text text' (fun member => line (inInner.subset member))
        (Text.not_mem_of_mem_splitAt isPiece) named done
    exact ⟨⟨chars, inside.trans inInner, legible, apart⟩, named', again⟩
  obtain ⟨related, named', -⟩ := Reading.mapM_again (each []) named read
  have areArgs : ∀ t ∈ args, t.From inner := by
    intro t member
    obtain ⟨arg, -, -, known⟩ := exists_of_forall₂ related member
    exact known
  have alike : Alike inner (joinWith [','] (args.map Term.chars)) := by
    have pieces := @Alike.joinWith [','] _ _
      (List.forall₂_map_right_iff.2 (related.imp fun arg t same => same.1 ▸ Alike.trim arg))
    rwa [Text.joinWith_splitAt] at pieces
  have cut : splitAt ',' (joinWith [','] (args.map Term.chars)) = args.map Term.chars := by
    rw [Text.joinWith_eq_intercalate]
    refine Text.splitAt_intercalate (fun piece isPiece => ?_) (by simpa using some)
    obtain ⟨a, member, rfl⟩ := List.mem_map.1 isPiece
    exact (areArgs a member).apart ',' (by decide)
  have filled : isAllBlank (joinWith [','] (args.map Term.chars)) = false := by
    cases args with
    | nil => exact absurd rfl some
    | cons t rest =>
      exact Text.isAllBlank_joinWith (Term.chars_eq t ▸ (areArgs t (by simp)).legible.isAllBlank_eq) _
  refine ⟨areArgs, named', alike, fun text' => ?_⟩
  obtain ⟨-, -, again⟩ := Reading.mapM_again (each text') named read
  unfold Goal.readArgs
  rw [filled, cut, if_neg Bool.false_ne_true]
  exact again _ (List.forall₂_map_right_iff.2 (List.forall₂_same.2 fun a _ => rfl))

/-- Parentheses around blanks can be left out. -/
theorem Scan.Alike.parentheses {inner : List Char} (blank : isAllBlank inner = true) :
    Alike ('(' :: inner ++ [')']) [] := by
  intro depth
  have flat : ∀ c ∈ inner, nesting c = 0 ∧ c ≠ ',' := fun c member =>
    flat_of_isBlank (List.all_eq_true.1 blank c member)
  have opened : depthBehind nesting ',' depth ['('] = some (depth + 1) := rfl
  have closed : depthBehind nesting ',' (depth + 1) [')'] = some (depth + 1 + -1) := rfl
  rw [← List.singleton_append, depthBehind_append, depthBehind_append, opened, Option.bind_some,
    depthBehind_of_flat flat, Option.bind_some, closed, Int.add_neg_cancel_right]
  rfl

private theorem chars_eq_call (g : Goal) : g.chars = call g.functor.toList (innerText g.args) := by
  obtain ⟨functor, args⟩ := g
  cases args <;> rfl

/-- The arguments that stand between the parentheses of a goal, if there are any. -/
private def readInner (text : List Char) : Option (List Char) → Reading (List Term)
  | none => pure []
  | some inner => Goal.readArgs text inner

private theorem read_of_parts {text functor : List Char} {inner : Option (List Char)}
    (parts : goalParts? text = some (functor, inner)) :
    Goal.read text = readInner text inner >>= fun args =>
      pure { functor := String.ofList functor, args := args } := by
  unfold Goal.read
  rw [parts]
  cases inner <;> rfl

/-- What stands between parentheses is read again from its text. -/
private theorem readInner_again {text : List Char} {inner : Option (List Char)} {s s' : Scope}
    {args : List Term} (named : s.Named) (line : ∀ t, inner = some t → '\n' ∉ t)
    (read : readInner text inner s = .ok (args, s')) :
    (∀ t ∈ args, ∃ source, inner = some source ∧ t.From source) ∧ s'.Named ∧
      (∀ functor, Alike (call functor inner) (call functor (innerText args))) ∧
        ∀ text', readInner text' (innerText args) s = .ok (args, s') := by
  cases inner with
  | none =>
    cases read
    exact ⟨List.forall_mem_nil _, named, fun functor => .refl _, fun text' => rfl⟩
  | some inner =>
    rcases cases_of_readArgs read with ⟨blank, rfl, rfl⟩ | ⟨some, read⟩
    · refine ⟨List.forall_mem_nil _, named, fun functor => ?_, fun text' => rfl⟩
      have alike := (Alike.refl functor).append (Alike.parentheses blank)
      rwa [List.append_nil, ← List.append_assoc] at alike
    · obtain ⟨known, named', alike, again⟩ := readArgs_again named (line inner rfl) some read
      unfold innerText
      rw [if_neg some]
      exact ⟨fun t member => ⟨inner, rfl, known t member⟩, named', fun functor =>
        ((Alike.refl functor).append ((Alike.refl ['(']).append alike)).append (.refl [')']), again⟩

/-- A goal that has been read is cut out of other goals like its text, its functor is made of the characters
of functors, and its arguments stand in the text. -/
structure Goal.From (g : Goal) (text : List Char) : Prop where
  alike : Alike text g.chars
  neat : g.Neat
  functor : ∀ c ∈ g.functor.toList, isFunctorChar c = true
  args : ∀ t ∈ g.args, t.From text

/-- A goal is read again from its text, also between blanks. -/
theorem Goal.read_again {text : List Char} {s s' : Scope} {g : Goal} (named : s.Named)
    (read : Goal.read text s = .ok (g, s')) :
    g.From text ∧ s'.Named ∧ ∀ text', trim text' = g.chars → Goal.read text' s = .ok (g, s') := by
  have neat := (Goal.neat_read text s g s' named read).1
  cases parts : goalParts? text with
  | none =>
    unfold Goal.read at read
    rw [parts] at read
    cases read
  | some functorInner =>
    obtain ⟨functor, inner⟩ := functorInner
    obtain ⟨some, isFunctor, alike⟩ := alike_of_goalParts? parts
    obtain ⟨-, -, inside⟩ := cases_of_goalParts? parts
    rw [read_of_parts parts] at read
    obtain ⟨⟨args, s₁⟩, readArgs, equal⟩ := Except.bind_eq_ok.1 read
    cases equal
    obtain ⟨known, named', alike', again⟩ :=
      readInner_again named (fun t isInner => (inside t isInner).1) readArgs
    have chars : (Goal.mk (String.ofList functor) args).chars = call functor (innerText args) := by
      rw [chars_eq_call, String.toList_ofList]
    have isGoal : (Goal.mk (String.ofList functor) args).From text := by
      refine ⟨chars ▸ alike.trans (alike' functor), neat, by rwa [String.toList_ofList], fun t member => ?_⟩
      obtain ⟨source, isInner, isInside, legible, apart⟩ := known t member
      exact ⟨isInside.trans (infix_of_goalParts? (isInner ▸ parts)), legible, apart⟩
    refine ⟨isGoal, named', fun text' same => ?_⟩
    have padded := Text.padded_trim text'
    rw [same, chars] at padded
    have line : ∀ t, innerText args = .some t → '\n' ∉ t := fun t isInner member => by
      refine neat.line ?_
      rw [chars, isInner, call]
      exact List.mem_append_left _ (List.mem_append_right _ (List.mem_cons_of_mem _ member))
    rw [read_of_parts (goalParts?_of_padded some isFunctor line padded)]
    exact Except.bind_eq_ok.2 ⟨_, again text', rfl⟩

/-- A goal has characters. -/
theorem Goal.Neat.chars_ne_nil {g : Goal} (neat : g.Neat) : g.chars ≠ [] := by
  unfold Goal.chars
  split
  · exact neat.functor.some
  · simp

/-- Goals are read again from their texts with commas between them, also with blanks around each. -/
theorem Goal.readAll_again {text : List Char} {s s' : Scope} {goals : List Goal} (named : s.Named)
    (read : Goal.readAll text s = .ok (goals, s')) :
    (∀ g ∈ goals, ∃ piece, g.From piece) ∧ s'.Named ∧
      ∀ texts, List.Forall₂ (fun g t => trim t = Goal.chars g) goals texts →
        Goal.readAll (joinWith [','] texts) s = .ok (goals, s') := by
  set kept := (splitTop ',' 0 text).filter fun piece => !isAllBlank piece with isKept
  have each : ∀ piece ∈ kept, ∀ s g s', s.Named → Goal.read piece s = .ok (g, s') →
      g.From piece ∧ s'.Named ∧ ∀ t, trim t = g.chars → Goal.read t s = .ok (g, s') :=
    fun piece _ s g s' named done => Goal.read_again named done
  obtain ⟨related, named', again⟩ := Reading.mapM_again each named read
  have known : ∀ g ∈ goals, ∃ piece, g.From piece := fun g isGoal =>
    (exists_of_forall₂ related isGoal).imp fun _ isFrom => isFrom.2
  refine ⟨known, named', fun texts areTexts => ?_⟩
  -- none of the texts is blank
  have filled : texts.filter (fun t => !isAllBlank t) = texts := by
    refine List.filter_eq_self.2 fun t member => ?_
    obtain ⟨g, isGoal, isText⟩ := exists_of_forall₂ areTexts member
    rw [Bool.not_eq_true', Bool.eq_false_iff]
    intro blank
    have none : trimStart t = [] := List.dropWhile_eq_nil_iff.2 (List.all_eq_true.1 blank)
    rw [trim, none] at isText
    obtain ⟨piece, isFrom⟩ := known g isGoal
    exact isFrom.neat.chars_ne_nil isText.symm
  have cut : (splitTop ',' 0 (joinWith [','] texts)).filter (fun t => !isAllBlank t) = texts := by
    by_cases none : kept = []
    · rw [none, List.forall₂_nil_left_iff] at related
      rw [related, List.forall₂_nil_left_iff] at areTexts
      rw [areTexts]
      rfl
    · have written : List.Forall₂ Alike kept (goals.map Goal.chars) :=
        List.forall₂_map_right_iff.2 (related.imp fun _ _ isFrom => isFrom.alike)
      have padded : List.Forall₂ Alike (goals.map Goal.chars) texts :=
        List.forall₂_map_left_iff.2 (areTexts.imp fun g t isText => isText ▸ (Alike.trim t).symm)
      have arePieces := (pieces_splitTop 0 text).filter rfl _ none
      rw [splitTop_joinWith ((arePieces.congr written).congr padded), filled]
  unfold Goal.readAll
  rw [cut]
  exact again texts areTexts

/-! ### Queries -/

/-- A goal stands on a line of its own. -/
theorem Goal.Neat.legible {g : Goal} (neat : g.Neat) : Legible g.text := by
  cases args : innerText g.args with
  | none =>
    have text : g.text = g.functor := by
      rw [Goal.text, chars_eq_call, args, call, String.ofList_toList]
    exact text ▸ neat.functor.legible
  | some inner =>
    have text : g.text = g.functor ++ "(" ++ String.ofList inner ++ ")" := by
      apply String.toList_injective
      rw [Goal.text, chars_eq_call, args, String.toList_ofList]
      simp only [call, String.toList_append, String.toList_ofList, List.append_assoc]
      rfl
    have line := neat.line
    rw [chars_eq_call, args, call] at line
    refine text ▸ legible_call neat.functor fun member => line ?_
    rw [String.toList_ofList] at member
    exact List.mem_append_left _ (List.mem_append_right _ (List.mem_cons_of_mem _ member))

theorem Goal.Neat.trim_chars {g : Goal} (neat : g.Neat) : trim g.chars = g.chars := by
  have same := neat.legible.trim_eq
  rwa [Goal.text, String.toList_ofList] at same

/-- A query stands on a line of its own. -/
theorem Query.legible_text {q : Query} (neat : ∀ g ∈ q.goals, g.Neat) : Legible q.text := by
  have text : q.text = ",".intercalate (q.goals.map Goal.text) := by
    apply String.toList_injective
    rw [Query.text, String.toList_ofList, Query.chars, Text.joinWith_eq_intercalate,
      String.toList_intercalate, List.map_map]
    exact congrArg _ (List.map_congr_left fun g _ => String.toList_ofList.symm)
  rw [text]
  refine Legible.intercalate (by decide) (fun name member => ?_) (List.cons_ne_nil _ _)
  obtain ⟨g, isGoal, rfl⟩ := List.mem_map.1 member
  exact (neat g isGoal).legible

/-- A query that has been read is read again from its text. -/
theorem Query.parse?_text {text : String} {q : Query} (parsed : Query.parse? text = .ok q) :
    Query.parse? q.text = .ok q := by
  have neat := Query.neat_of_parse? parsed
  unfold Query.parse? at parsed
  obtain ⟨goals, read, made⟩ := Except.bind_eq_ok.1 parsed
  obtain ⟨⟨goals', s⟩, ran, rfl⟩ := Except.map_eq_ok.1 read
  obtain ⟨-, -, again⟩ := Goal.readAll_again Scope.named_empty ran
  cases goals' with
  | nil => cases made
  | cons head body =>
    cases made
    have written := again ((head :: body).map Goal.chars)
      (List.forall₂_map_right_iff.2 (List.forall₂_same.2 fun g isGoal => (neat g isGoal).trim_chars))
    unfold Query.parse?
    refine Except.bind_eq_ok.2 ⟨head :: body, Except.map_eq_ok.2 ⟨(head :: body, s), ?_, rfl⟩, rfl⟩
    rw [Query.text, String.toList_ofList]
    exact written

/-! ### Examples -/

/-- A query can be written in a field of a line and read again. -/
structure Query.Rereads (q : Query) : Prop where
  again : Query.parse? q.text = .ok q
  legible : Legible q.text
  field : '\t' ∉ q.chars

theorem Query.rereads_of_parse? {field : List Char} {q : Query} (free : '\t' ∉ field)
    (parsed : Query.parse? (String.ofList field) = .ok q) : q.Rereads where
  again := Query.parse?_text parsed
  legible := Query.legible_text (Query.neat_of_parse? parsed)
  field := by
    intro member
    rcases Query.mem_of_parse? parsed member with inText | mark
    · rw [String.toList_ofList] at inText
      exact free inText
    · revert mark
      decide

namespace Query.Rereads

variable {q : Query}

/-- No blanks are dropped from a query. -/
theorem trim_chars (rereads : q.Rereads) : trim q.chars = q.chars := by
  have same := rereads.legible.trim_eq
  rwa [Query.text, String.toList_ofList] at same

theorem getLast?_chars (rereads : q.Rereads) : ∃ c, q.chars.getLast? = some c ∧ isBlank c = false := by
  have last := rereads.legible.last
  rwa [Query.text, String.toList_ofList] at last

theorem getLast?_signed (rereads : q.Rereads) (sign : Char) :
    ∃ c, (sign :: q.chars).getLast? = some c ∧ isBlank c = false := by
  obtain ⟨c, isLast, ink⟩ := rereads.getLast?_chars
  exact ⟨c, by rw [List.getLast?_cons, isLast]; rfl, ink⟩

/-- Nor with a sign in front of it. -/
theorem trim_signed (rereads : q.Rereads) {sign : Char} (ink : isBlank sign = false) :
    trim (sign :: q.chars) = sign :: q.chars := by
  have padded : Text.Padded (sign :: q.chars) (sign :: q.chars) := .front (List.forall_mem_nil _) _
  exact padded.trim_eq_self ⟨sign, rfl, ink⟩ (rereads.getLast?_signed sign)

end Query.Rereads

/-- A text with fields behind it is cut at their separators. -/
theorem Text.splitAt_fields {sep : Char} {piece : List Char} {fields : List (List Char)} (first : sep ∉ piece)
    (apart : ∀ field ∈ fields, sep ∉ field) :
    splitAt sep (piece ++ fields.flatMap (sep :: ·)) = piece :: fields := by
  induction fields generalizing piece with
  | nil =>
    have alone := Text.splitAt_intercalate (List.forall_mem_singleton.2 first) (List.cons_ne_nil piece [])
    rw [List.intercalate_singleton] at alone
    rwa [List.flatMap_nil, List.append_nil]
  | cons field rest ih =>
    obtain ⟨next, others⟩ := List.forall_mem_cons.1 apart
    rw [List.flatMap_cons, List.cons_append, Text.splitAt_append_cons first, ih next others]

/-- It ends in ink if all of them do. -/
theorem Text.getLast?_fields {sep : Char} {piece : List Char} {fields : List (List Char)}
    (first : ∃ c, piece.getLast? = some c ∧ isBlank c = false)
    (ends : ∀ field ∈ fields, ∃ c, field.getLast? = some c ∧ isBlank c = false) :
    ∃ c, (piece ++ fields.flatMap (sep :: ·)).getLast? = some c ∧ isBlank c = false := by
  induction fields generalizing piece with
  | nil => simpa using first
  | cons field rest ih =>
    obtain ⟨⟨c, isLast, ink⟩, others⟩ := List.forall_mem_cons.1 ends
    have behind : ∃ c, (piece ++ sep :: field).getLast? = some c ∧ isBlank c = false :=
      ⟨c, by rw [List.getLast?_append, List.getLast?_cons, isLast]; rfl, ink⟩
    have all := ih behind others
    rwa [List.append_assoc] at all

namespace LabelledExample

/-- What is added to an example can be read again. -/
theorem rereads_of_addLabels {line : Nat} {e e' : LabelledExample} {fields : List (List Char)}
    (free : ∀ field ∈ fields, '\t' ∉ field) (known : ∀ q ∈ e.pos ++ e.neg, q.Rereads)
    (added : addLabels line e fields = .ok e') : ∀ q ∈ e'.pos ++ e'.neg, q.Rereads := by
  induction fields generalizing e with
  | nil =>
    cases added
    exact known
  | cons field rest ih =>
    obtain ⟨first, others⟩ := List.forall_mem_cons.1 free
    have inField {c : Char} {label : List Char} (isLabel : trim field = c :: label) : '\t' ∉ label :=
      fun member => first (Text.subset_trim field (isLabel ▸ List.mem_cons_of_mem _ member))
    rw [addLabels] at added
    split at added
    · exact ih others known added
    · rename_i label isLabel
      obtain ⟨q, read, added⟩ := Except.bind_eq_ok.1 added
      refine ih others (fun q' member => ?_) added
      simp only [List.mem_append, List.mem_singleton] at member
      rcases member with (before | rfl) | neg
      · exact known q' (List.mem_append_left _ before)
      · exact Query.rereads_of_parse? (inField isLabel) read
      · exact known q' (List.mem_append_right _ neg)
    · rename_i label isLabel
      obtain ⟨q, read, added⟩ := Except.bind_eq_ok.1 added
      refine ih others (fun q' member => ?_) added
      simp only [List.mem_append, List.mem_singleton] at member
      rcases member with pos | before | rfl
      · exact known q' (List.mem_append_left _ pos)
      · exact known q' (List.mem_append_right _ before)
      · exact Query.rereads_of_parse? (inField isLabel) read
    · cases added

/-- Labels are read again from their fields. -/
theorem addLabels_fields (line : Nat) (e : LabelledExample) {pos neg : List Query}
    (rereads : ∀ q ∈ pos ++ neg, q.Rereads) :
    addLabels line e (pos.map (fun q => '+' :: q.chars) ++ neg.map fun q => '-' :: q.chars) =
      .ok { e with pos := e.pos ++ pos, neg := e.neg ++ neg } := by
  induction pos generalizing e with
  | nil =>
    rw [List.nil_append] at rereads
    rw [List.map_nil, List.nil_append, List.append_nil]
    induction neg generalizing e with
    | nil => rw [List.append_nil]; rfl
    | cons q rest ih =>
      obtain ⟨first, others⟩ := List.forall_mem_cons.1 rereads
      rw [List.map_cons, addLabels, first.trim_signed (by decide)]
      refine Except.bind_eq_ok.2 ⟨q, first.again, (ih _ others).trans ?_⟩
      rw [List.append_assoc]
      rfl
  | cons q rest ih =>
    obtain ⟨first, others⟩ := List.forall_mem_cons.1 rereads
    rw [List.map_cons, List.cons_append, addLabels, first.trim_signed (by decide)]
    refine Except.bind_eq_ok.2 ⟨q, first.again, (ih _ others).trans ?_⟩
    rw [List.append_assoc]
    rfl

/-- The fields of an example behind its query. -/
def labelFields (e : LabelledExample) : List (List Char) :=
  e.pos.map (fun q => '+' :: q.chars) ++ e.neg.map fun q => '-' :: q.chars

theorem toList_text (e : LabelledExample) :
    e.text.toList = e.query.chars ++ e.labelFields.flatMap ('\t' :: ·) := by
  rw [text, String.toList_ofList, labelFields, List.flatMap_append, List.flatMap_map, List.flatMap_map,
    List.append_assoc]

/-- An example that has been read is read again from its text, with the same variables in its query and its
labels, which stand in the same order. -/
theorem parse?_text_of_parse? {text : String} {line : Nat} {e : LabelledExample}
    (parsed : LabelledExample.parse? text line = .ok e) (line' : Nat) :
    LabelledExample.parse? e.text line' = .ok e := by
  unfold LabelledExample.parse? at parsed
  simp only at parsed
  split at parsed
  · cases parsed
  rename_i field fields cut
  have free : ∀ piece ∈ field :: fields, '\t' ∉ piece := fun piece isPiece =>
    Text.not_mem_of_mem_splitAt (cut ▸ isPiece)
  obtain ⟨inQuery, inLabels⟩ := List.forall_mem_cons.1 free
  split at parsed
  · cases parsed
  obtain ⟨q, read, added⟩ := Except.bind_eq_ok.1 parsed
  have isQuery : e.query = q := query_addLabels added
  have query : e.query.Rereads := isQuery ▸
    Query.rereads_of_parse? (fun member => inQuery (Text.subset_trim field member)) read
  have labels : ∀ q ∈ e.pos ++ e.neg, q.Rereads :=
    rereads_of_addLabels inLabels (fun q none => by cases none) added
  have areFields : ∀ field ∈ e.labelFields,
      '\t' ∉ field ∧ ∃ c, field.getLast? = some c ∧ isBlank c = false := by
    have signed {sign : Char} (other : sign ≠ '\t') {q : Query} (isLabel : q ∈ e.pos ++ e.neg) :
        '\t' ∉ sign :: q.chars ∧ ∃ c, (sign :: q.chars).getLast? = some c ∧ isBlank c = false := by
      rw [List.mem_cons, not_or]
      exact ⟨⟨other.symm, (labels q isLabel).field⟩, (labels q isLabel).getLast?_signed sign⟩
    intro field member
    rcases List.mem_append.1 member with pos | neg
    · obtain ⟨q, isLabel, rfl⟩ := List.mem_map.1 pos
      exact signed (by decide) (List.mem_append_left _ isLabel)
    · obtain ⟨q, isLabel, rfl⟩ := List.mem_map.1 neg
      exact signed (by decide) (List.mem_append_right _ isLabel)
  -- no end of a line is dropped from the text, which is cut into the fields again
  have cut' : splitAt '\t' (e.text.toList.reverse.dropWhile fun c => c == '\r' || c == '\n').reverse =
      e.query.chars :: e.labelFields := by
    obtain ⟨c, isLast, ink⟩ : ∃ c, e.text.toList.getLast? = some c ∧ isBlank c = false := by
      rw [toList_text]
      exact Text.getLast?_fields query.getLast?_chars fun field member => (areFields field member).2
    have other : (c == '\r' || c == '\n') = false := by
      rw [Bool.or_eq_false_iff, beq_eq_false_iff_ne, beq_eq_false_iff_ne]
      constructor <;> rintro rfl <;> exact absurd ink (by decide)
    rw [← List.head?_reverse] at isLast
    rw [Text.dropWhile_of_head? isLast other, List.reverse_reverse, toList_text]
    exact Text.splitAt_fields query.field fun field member => (areFields field member).1
  unfold LabelledExample.parse?
  simp only [cut', query.trim_chars]
  split
  · rename_i none
    obtain ⟨c, isLast, -⟩ := query.getLast?_chars
    rw [none] at isLast
    cases isLast
  · exact Except.bind_eq_ok.2 ⟨e.query, query.again, addLabels_fields line' _ labels⟩

/-- A line with blanks and empty parentheses, whose variables are shared within the query and within each
label. -/
def spacedLine : String := " p( X , _,_ ),q (X)\t-r( ) , s(\x7b,\x7d) \t+p(_)"

/-- The example of that line. -/
def spaced : LabelledExample where
  query := ⟨⟨"p", [.var ⟨"X", 0⟩, .var ⟨"_", 1⟩, .var ⟨"_", 2⟩]⟩, [⟨"q", [.var ⟨"X", 0⟩]⟩]⟩
  pos := [⟨⟨"p", [.var ⟨"_", 0⟩]⟩, []⟩]
  neg := [⟨⟨"r", []⟩, [⟨"s", [.constant "\x7b", .constant "\x7d"]⟩]⟩]

theorem parse?_text_of_parse?_spaced :
    LabelledExample.parse? spacedLine 1 = .ok spaced ∧
      spaced.text = "p(X,_,_),q(X)\t+p(_)\t-r,s(\x7b,\x7d)" ∧
        LabelledExample.parse? spaced.text 2 = .ok spaced := by
  have reads : (LabelledExample.parse? spacedLine 1).toOption = some spaced := by decide +kernel
  have parsed : LabelledExample.parse? spacedLine 1 = .ok spaced := by
    revert reads
    generalize LabelledExample.parse? spacedLine 1 = result
    intro reads
    cases result <;> cases reads
    rfl
  exact ⟨parsed, by decide +kernel, parse?_text_of_parse? parsed 2⟩

end LabelledExample

end ProofWalk
