import ProofWalk.Bytecode.Program
import ProofWalk.Proofs.Bytecode.Names
import ProofWalk.Proofs.Text.Legible

/-!
# Saved programs

An instruction is written as its opcode and its operands between tabs, and it is read operand by operand;
what stands behind the operands is ignored. It reads back if its names hold no tab and its numbers fit in
words. A constant with a tab is lost: no instruction that has been read holds one.

A program is written line by line, the labels of an address above its instruction. What is read from these
lines has the same code, and the same labels at each address. The clauses of a compiled program begin at
rising addresses, so it reads back as it is, provided that its constants hold no tab.

## Main definitions

* `Instruction.Fits` — the numbers of an instruction fit in words
* `Mention.IsField` — a name that holds no tab
* `Instruction.Writable` — an instruction that reads back from a line of its own
* `Program.Laid` — the entries of a program lie in it, in the order of their addresses

## Main results

* `Instruction.parse?_text` — an instruction reads back
* `Instruction.isField_of_parse?` — the constants of an instruction that has been read hold no tab
* `Program.Line.ofChars_text`, `Program.Line.ofChars_label` — lines are told apart
* `Program.parse?_text_regrouped` — what is read from a written program
* `Program.parse?_text` — a program whose entries are in order reads back
-/

namespace ProofWalk

/-- The name that is mentioned; a comment is none. -/
def Mention.name? : Mention → Option String
  | .constant s | .label s | .functor s => some s
  | .register _ | .comment _ => none

/-- A name that can be told from the fields around it. -/
def Mention.IsField (m : Mention) : Prop := ∀ s, m.name? = some s → '\t' ∉ s.toList

/-- The tab is a blank. -/
theorem Text.IsWord.not_mem_tab {s : String} (word : IsWord s) : '\t' ∉ s.toList := by
  intro member
  have ink := word.ink _ member
  exact absurd ink (by decide)

namespace Instruction

/-- An integer that fits in a signed word. -/
def InWord (n : Int) : Prop := -(Text.wordLimit / 2 : Int) ≤ n ∧ n < Text.wordLimit / 2

/-- The numbers of an instruction fit in words. -/
def Fits : Instruction → Prop
  | allocate n | findall n | beginFeature _ n => n < Text.wordLimit
  | pushFree n | pushBound n | featureBound n | unifyConstant _ n => InWord n
  | takeArgument m n | unifyBound m n => InWord m ∧ InWord n
  | _ => True

/-! ### Operands -/

theorem countOperand_natText (opcode : String) {n : Nat} (fits : n < Text.wordLimit) :
    countOperand opcode (operands.natText n) = .ok n := by
  rw [countOperand, operands.natText, String.toList_ofList, Text.trim_natDigits, Text.readCount?_natDigits,
    if_pos fits]

theorem integerOperand_intText (opcode : String) {n : Int} (fits : InWord n) :
    integerOperand opcode (operands.intText n) = .ok n := by
  rw [integerOperand, operands.intText, String.toList_ofList, Text.readInteger?_intText fits.1 fits.2]

/-- An instruction is read from its operands. -/
theorem ofFields_operands {i : Instruction} (fits : i.Fits) : ofFields i.opcode i.operands = .ok i := by
  cases i with
  | comment text =>
    by_cases none : text.isEmpty = true
    · rw [operands, if_pos none, String.isEmpty_iff.1 none]
      rfl
    · rw [operands, if_neg none]
      exact congrArg (fun s => Except.ok (comment s)) String.intercalate_singleton
  | call s | pushConstant s | featureConstant s => rfl
  | ret | clearFeatures | featureWeight | reportFeature => rfl
  | allocate n | findall n | beginFeature s n =>
    simp only [Fits] at fits
    simp [ofFields, opcode, operands, withOne, withTwo, countOperand_natText, fits]
  | pushFree n | pushBound n | featureBound n | unifyConstant s n =>
    simp only [Fits] at fits
    simp [ofFields, opcode, operands, withOne, withTwo, integerOperand_intText, fits]
  | takeArgument m n | unifyBound m n =>
    simp only [ofFields, opcode, operands, withTwo, integerOperand_intText _ fits.1,
      integerOperand_intText _ fits.2]
    rfl

theorem isWord_opcode (i : Instruction) : Text.IsWord i.opcode := by
  cases i <;> exact ⟨by simp [opcode], by simp [opcode, Text.isBlank]⟩

theorem isWord_intText (n : Int) : Text.IsWord (operands.intText n) := by
  have digits (m : Nat) : ∀ c ∈ Decimal.natDigits m, Text.isBlank c = false := fun c member =>
    Text.isBlank_of_isDigit (Text.isDigit_of_mem_natDigits member)
  cases n with
  | ofNat m =>
    refine ⟨?_, fun c member => digits m c ?_⟩
    · rw [operands.intText, String.toList_ofList]
      exact Text.natDigits_ne_nil m
    · rwa [operands.intText, String.toList_ofList] at member
  | negSucc m =>
    refine ⟨?_, fun c member => ?_⟩
    · rw [operands.intText, String.toList_ofList]
      exact List.cons_ne_nil _ _
    · rw [operands.intText, String.toList_ofList] at member
      rcases List.mem_cons.1 member with rfl | digit
      · decide
      · exact digits (m + 1) c digit

/-- An operand is the text of a comment, a name, or a number. -/
theorem cases_of_mem_operands {i : Instruction} {o : String} (member : o ∈ i.operands) :
    i = comment o ∨ (∃ m ∈ i.mentions, m.name? = some o) ∨ ∃ n, o = operands.intText n := by
  cases i with
  | comment text =>
    rw [operands] at member
    split at member
    · cases member
    · rw [List.mem_singleton.1 member]
      exact .inl rfl
  | call s | pushConstant s | featureConstant s =>
    rw [List.mem_singleton.1 member]
    exact .inr (.inl ⟨_, List.mem_singleton_self _, rfl⟩)
  | ret | clearFeatures | featureWeight | reportFeature => cases member
  | allocate n | findall n =>
    rw [List.mem_singleton.1 member]
    exact .inr (.inr ⟨n, rfl⟩)
  | pushFree n | pushBound n | featureBound n =>
    rw [List.mem_singleton.1 member]
    exact .inr (.inr ⟨n, rfl⟩)
  | unifyConstant s n | beginFeature s n =>
    rcases List.mem_pair.1 member with rfl | rfl
    · exact .inr (.inl ⟨_, List.mem_singleton_self _, rfl⟩)
    · exact .inr (.inr ⟨n, rfl⟩)
  | takeArgument m n | unifyBound m n =>
    rcases List.mem_pair.1 member with rfl | rfl
    · exact .inr (.inr ⟨m, rfl⟩)
    · exact .inr (.inr ⟨n, rfl⟩)

/-! ### Reading back -/

/-- A comment may hold tabs: its fields are put together again. -/
theorem ofFields_comment (text : String) :
    ∃ fields, Text.fields '\t' (comment text).text = "comment" :: fields ∧
      ofFields "comment" fields = .ok (comment text) := by
  by_cases none : text.isEmpty = true
  · rw [String.isEmpty_iff.1 none]
    exact ⟨[], rfl, rfl⟩
  · have written : (comment text).text.toList = "comment".toList ++ '\t' :: text.toList := by
      rw [Instruction.text, operands, if_neg none, String.toList_intercalate, List.map_cons, List.map_cons,
        List.map_nil, List.intercalate_cons_cons, List.intercalate_singleton, List.append_assoc]
      rfl
    refine ⟨Text.fields '\t' text, ?_, ?_⟩
    · rw [Text.fields, written, Text.splitAt_append_cons (by decide)]
      rfl
    · exact congrArg (fun s => Except.ok (comment s)) (Text.intercalate_fields '\t' text)

theorem fields_text {i : Instruction} (fields : ∀ m ∈ i.mentions, m.IsField)
    (other : ∀ text, i ≠ comment text) : Text.fields '\t' i.text = i.opcode :: i.operands := by
  refine Text.fields_intercalate (List.forall_mem_cons.2 ⟨?_, fun o member => ?_⟩) (List.cons_ne_nil _ _)
  · exact i.isWord_opcode.not_mem_tab
  · rcases cases_of_mem_operands member with isComment | ⟨m, isMention, isName⟩ | ⟨n, rfl⟩
    · exact absurd isComment (other o)
    · exact fields m isMention o isName
    · exact (isWord_intText n).not_mem_tab

/-- An instruction reads back if its names hold no tab and its numbers fit in words. -/
theorem parse?_text {i : Instruction} (fields : ∀ m ∈ i.mentions, m.IsField) (fits : i.Fits) (line : Nat) :
    parse? i.text line = .ok i := by
  have read : ∃ operands, Text.fields '\t' i.text = i.opcode :: operands ∧
      ofFields i.opcode operands = .ok i := by
    by_cases isComment : ∃ text, i = comment text
    · obtain ⟨text, rfl⟩ := isComment
      exact ofFields_comment text
    · refine ⟨i.operands, fields_text fields fun text same => ?_, ofFields_operands fits⟩
      exact isComment ⟨text, same⟩
  obtain ⟨operands, cut, made⟩ := read
  have trimmed : Text.trimmed i.opcode = i.opcode := by
    rw [Text.trimmed, i.isWord_opcode.legible.trim_eq, String.ofList_toList]
  simp only [parse?, cut, trimmed, made]

example : parse? (pushConstant "a\tb").text 1 = .ok (pushConstant "a") := by rfl

/-! ### Names that have been read -/

section

variable {opcode : String} {operands : List String} {i : Instruction}

theorem withOne_eq_ok {read : String → Except InstructionFault Instruction} :
    withOne opcode operands read = .ok i ↔ ∃ a rest, operands = a :: rest ∧ read a = .ok i := by
  cases operands with
  | nil => simp [withOne]
  | cons a rest => simp [withOne]

theorem withTwo_eq_ok {read : String → String → Except InstructionFault Instruction} :
    withTwo opcode operands read = .ok i ↔ ∃ a b rest, operands = a :: b :: rest ∧ read a b = .ok i := by
  match operands with
  | [] | [a] => simp [withTwo]
  | a :: b :: rest => simp [withTwo]

/-- The names in an instruction are operands that it has been read from. -/
theorem mem_of_ofFields (made : ofFields opcode operands = .ok i) {m : Mention} (member : m ∈ i.mentions)
    {s : String} (isName : m.name? = some s) : s ∈ operands := by
  unfold ofFields at made
  split at made
  all_goals
    -- the operands are taken apart, and what is left says which of them the instruction holds
    simp only [withOne_eq_ok, withTwo_eq_ok, Except.bind_eq_ok, pure, Except.pure, Except.ok.injEq] at made
    grind [Instruction.mentions, Mention.name?]

/-- The names in an instruction that has been read hold no tab. -/
theorem isField_of_parse? {text : String} {line : Nat} (parsed : parse? text line = .ok i) :
    ∀ m ∈ i.mentions, m.IsField := by
  intro m member s isName
  have fields : ∀ field ∈ Text.fields '\t' text, '\t' ∉ field.toList := by
    intro field isField
    obtain ⟨piece, isPiece, rfl⟩ := List.mem_map.1 isField
    rw [String.toList_ofList]
    exact Text.not_mem_of_mem_splitAt isPiece
  unfold parse? at parsed
  simp only at parsed
  split at parsed
  · rename_i made
    cases parsed
    split at made
    · cases mem_of_ofFields made member isName
    · rename_i opcode operands cut
      rw [cut] at fields
      exact fields s (List.mem_cons_of_mem _ (mem_of_ofFields made member isName))
  · cases parsed

end

/-! ### Lines -/

/-- The operands of an instruction fill the rest of its line and are not cut at its end. -/
def Printable (i : Instruction) : Prop := ∀ o ∈ i.operands, Legible o

theorem Printable.legible_text {i : Instruction} (printable : i.Printable) : Legible i.text :=
  Legible.intercalate (by decide) (List.forall_mem_cons.2 ⟨i.isWord_opcode.legible, printable⟩)
    (List.cons_ne_nil _ _)

/-- An instruction that ends in a colon has operands, and so a tab. -/
theorem tab_mem_text {i : Instruction} (colon : i.text.toList.getLast? = some ':') : '\t' ∈ i.text.toList := by
  cases given : i.operands with
  | nil =>
    rw [text, given, String.intercalate_singleton] at colon
    cases i <;> simp [opcode] at colon
  | cons o rest =>
    rw [text, given, String.intercalate_cons_cons, String.toList_append, String.toList_append]
    exact List.mem_append_left _ (List.mem_append_right _ (by decide))

end Instruction

namespace Program.Line

variable {s label : String} {i : Instruction}

/-- Reading a line drops nothing from one that is legible. -/
theorem cut_of_legible (legible : Legible s) :
    (s.toList.reverse.dropWhile fun c => c == '\r' || c == '\n').reverse = s.toList ∧
      s.toList.dropWhile (· == ' ') = s.toList ∧ s.toList.isEmpty = false := by
  refine ⟨legible.dropWhile_reverse_eq fun c ink => ?_, legible.dropWhile_eq fun c ink => ?_, ?_⟩
  · rw [Bool.or_eq_false_iff, beq_eq_false_iff_ne, beq_eq_false_iff_ne]
    constructor <;>
    · rintro rfl
      exact absurd ink (by decide)
  · rw [beq_eq_false_iff_ne]
    rintro rfl
    exact absurd ink (by decide)
  · rw [List.isEmpty_eq_false_iff]
    intro none
    obtain ⟨c, isFirst, -⟩ := legible.first
    rw [none] at isFirst
    cases isFirst

/-- The line of an instruction is read as such. -/
theorem ofChars_text (printable : i.Printable) : ofChars i.text.toList = .instruction i.text := by
  have legible := printable.legible_text
  obtain ⟨ends, begins, filled⟩ := cut_of_legible legible
  simp only [ofChars, ends, legible.trim_eq, begins, filled, String.ofList_toList, Bool.false_eq_true, if_false]
  split
  · rename_i c name reversed
    have tab : i.text.toList.contains '\t' = true := by
      refine List.contains_iff_mem.2 (Instruction.tab_mem_text ?_)
      rw [← List.head?_reverse, reversed]
      rfl
    rw [if_pos tab]
  · rfl

theorem isWord_colon (word : Text.IsWord label) : Text.IsWord (label ++ ":") := by
  refine ⟨by simp, fun c member => ?_⟩
  rw [String.toList_append] at member
  rcases List.mem_append.1 member with inLabel | isColon
  · exact word.ink c inLabel
  · rw [List.mem_singleton.1 isColon]
    decide

/-- The line of a label is read as such. -/
theorem ofChars_label (word : Text.IsWord label) : ofChars (label ++ ":").toList = .label label := by
  have line := isWord_colon word
  have tab : (label ++ ":").toList.contains '\t' = false :=
    Bool.eq_false_iff.2 fun member => line.not_mem_tab (List.contains_iff_mem.1 member)
  obtain ⟨ends, -, filled⟩ := cut_of_legible line.legible
  have reversed : (label ++ ":").toList.reverse = ':' :: label.toList.reverse := by
    rw [String.toList_append, List.reverse_append]
    rfl
  simp only [ofChars, ends, line.legible.trim_eq, filled, tab, Bool.false_eq_true, if_false]
  cases characters : label.toList.reverse with
  | nil => exact absurd (List.reverse_eq_nil_iff.1 characters) word.some
  | cons c name =>
    rw [reversed, characters]
    simp only
    rw [← characters, List.reverse_reverse, String.ofList_toList]

end Program.Line

/-- An instruction that reads back from a line of its own. -/
structure Instruction.Writable (i : Instruction) : Prop where
  printable : i.Printable
  fields : ∀ m ∈ i.mentions, m.IsField
  fits : i.Fits

namespace Program

variable {p q : Program} {count : Nat} {waiting labels : List String}

/-! ### Programs line by line -/

theorem readLines_labels (words : ∀ l ∈ labels, Text.IsWord l) (number : Nat) (rest : List (List Char)) :
    readLines count waiting q (Text.numbered number (labels.map (fun l => (l ++ ":").toList) ++ rest)) =
      readLines count (waiting ++ labels) q (Text.numbered (number + labels.length) rest) := by
  induction labels generalizing waiting number with
  | nil => simp
  | cons label others ih =>
    rw [List.map_cons, List.cons_append, Text.numbered, readLines, Line.ofChars_label (words label (by simp))]
    simp only
    rw [ih (fun l member => words l (by simp [member])), List.append_assoc, List.singleton_append,
      List.length_cons, Nat.add_assoc, Nat.add_comm 1]

theorem readLines_instruction {i : Instruction} (writable : i.Writable) (number : Nat)
    (rest : List (Nat × List Char)) :
    readLines count waiting q ((number, i.text.toList) :: rest) =
      readLines count [] (q.append waiting [i]) rest := by
  rw [readLines, Line.ofChars_text writable.printable]
  simp only
  rw [Instruction.parse?_text writable.fields writable.fits]

theorem mem_labelsAt {a : Nat} {label : String} : label ∈ p.labelsAt a ↔ (label, a) ∈ p.entries := by
  simp only [labelsAt, List.mem_mergeSort, List.mem_filterMap]
  constructor
  · rintro ⟨⟨l, address⟩, isEntry, found⟩
    simp only [Option.ite_none_right_eq_some, Option.some.injEq] at found
    obtain ⟨rfl, rfl⟩ := found
    exact isEntry
  · exact fun isEntry => ⟨(label, a), isEntry, if_pos rfl⟩

/-- The labels of addresses, one address after the other. -/
def entriesAt (p : Program) (addresses : List Nat) : List (String × Nat) :=
  addresses.flatMap fun a => (p.labelsAt a).map fun l => (l, a)

/-- The lines of instructions, with the labels of their addresses above them. -/
def linesFrom (p : Program) (start : Nat) (code : List Instruction) : List String :=
  (Text.numbered start code).flatMap fun (a, i) => (p.labelsAt a).map (· ++ ":") ++ [i.text]

/-- Reading the lines of instructions adds these, and the labels of their addresses as entries. -/
theorem readLines_linesFrom {code : List Instruction} (writable : ∀ i ∈ code, i.Writable)
    (words : ∀ a, ∀ l ∈ p.labelsAt a, Text.IsWord l) (number : Nat) :
    readLines count [] q (Text.numbered number ((p.linesFrom q.size code).map String.toList)) =
      .ok { code := q.code ++ code.toArray
            entries := q.entries ++ p.entriesAt (List.range' q.size code.length) } := by
  induction code generalizing q number with
  | nil => simp [linesFrom, Text.numbered, readLines, entriesAt]
  | cons i rest ih =>
    have lines : (p.linesFrom q.size (i :: rest)).map String.toList =
        (p.labelsAt q.size).map (fun l => (l ++ ":").toList) ++
          i.text.toList :: (p.linesFrom (q.size + 1) rest).map String.toList := by
      simp [linesFrom, Text.numbered, Function.comp_def]
    -- the labels wait for the instruction below them and become entries with it
    have size : (q.append (p.labelsAt q.size) [i]).size = q.size + 1 := by simp [size, append]
    have others := @ih (q.append (p.labelsAt q.size) [i]) (fun j member => writable j (by simp [member]))
      (number + (p.labelsAt q.size).length + 1)
    rw [size] at others
    rw [lines, readLines_labels (words q.size), Text.numbered, List.nil_append,
      readLines_instruction (writable i (by simp)), others]
    simp [append, entriesAt, List.range'_succ]

/-- The program whose entries are those of this one, in the order of their addresses. -/
def regrouped (p : Program) : Program := { p with entries := p.entriesAt (List.range' 0 p.size) }

/-- What is read from a written program has its code, and its labels at each address. -/
theorem parse?_text_regrouped (writable : ∀ i ∈ p.code.toList, i.Writable)
    (words : ∀ e ∈ p.entries, Text.IsWord e.1) : parse? p.text = .ok p.regrouped := by
  have labels : ∀ a, ∀ l ∈ p.labelsAt a, Text.IsWord l := fun a l member =>
    words (l, a) (mem_labelsAt.1 member)
  have legible : ∀ line ∈ p.linesFrom 0 p.code.toList, Legible line := by
    intro line member
    obtain ⟨⟨a, i⟩, isNumbered, inLines⟩ := List.mem_flatMap.1 member
    rcases List.mem_append.1 inLines with isLabel | isText
    · obtain ⟨l, atAddress, rfl⟩ := List.mem_map.1 isLabel
      exact (Line.isWord_colon (labels a l atAddress)).legible
    · rw [List.mem_singleton.1 isText]
      exact (writable i (Text.mem_of_mem_numbered isNumbered)).printable.legible_text
  have lines : Text.lines p.text.toList = (p.linesFrom 0 p.code.toList).map String.toList :=
    Legible.lines_join legible
  unfold parse?
  simp only [lines]
  refine (readLines_linesFrom (q := empty) writable labels 1).trans ?_
  simp [empty, regrouped, size]

/-- Reading a line adds an instruction at most, and the names in that hold no tab. -/
theorem isField_of_readLines {lines : List (Nat × List Char)}
    (fields : ∀ i ∈ q.code.toList, ∀ m ∈ i.mentions, m.IsField)
    (read : readLines count waiting q lines = .ok p) : ∀ i ∈ p.code.toList, ∀ m ∈ i.mentions, m.IsField := by
  induction lines generalizing waiting q with
  | nil =>
    cases waiting with
    | nil =>
      cases read
      exact fields
    | cons label others => cases read
  | cons line rest ih =>
    rw [readLines] at read
    split at read
    · exact ih fields read
    · exact ih fields read
    · split at read
      · rename_i i made
        refine ih (fun j member => ?_) read
        rw [append, Array.toList_append] at member
        rcases List.mem_append.1 member with old | new
        · exact fields j old
        · rw [List.mem_singleton.1 new]
          exact Instruction.isField_of_parse? made
      · cases read

/-- The names in a program that has been read hold no tab. -/
theorem isField_of_parse? {text : String} (parsed : parse? text = .ok p) :
    ∀ i ∈ p.code.toList, ∀ m ∈ i.mentions, m.IsField :=
  isField_of_readLines (q := empty) (fun i member => by cases member) parsed

/-! ### Entries in order -/

/-- The entries of a program lie in it, in the order of their addresses. -/
structure Laid (p : Program) : Prop where
  inside : ∀ e ∈ p.entries, e.2 < p.size
  sorted : p.entries.Pairwise fun e e' => e.2 < e'.2

/-- A list in the order of its keys is made of its parts at each key. -/
theorem flatMap_filter_range' {α : Type} {key : α → Nat} {items : List α} {start n : Nat}
    (sorted : items.Pairwise fun x y => key x < key y)
    (inside : ∀ x ∈ items, start ≤ key x ∧ key x < start + n) :
    ((List.range' start n).flatMap fun a => items.filter fun x => key x = a) = items := by
  induction n generalizing start items with
  | zero =>
    have none : items = [] := List.eq_nil_iff_forall_not_mem.2 fun x member => by
      have := inside x member
      omega
    rw [none]
    rfl
  | succ n ih =>
    rw [List.range'_succ, List.flatMap_cons]
    cases sorted with
    | nil => simp
    | @cons x rest first sorted =>
      have bounds := inside x (by simp)
      have others : ∀ y ∈ rest, start + 1 ≤ key y ∧ key y < start + 1 + n := fun y member => by
        have := first y member
        have := inside y (by simp [member])
        omega
      have notHere : rest.filter (fun y => key y = start) = [] := by
        refine List.filter_eq_nil_iff.2 fun y member => ?_
        have := others y member
        simp only [decide_eq_true_eq]
        omega
      -- the first item is at the first key, or no item is
      by_cases here : key x = start
      · have behind : ∀ a ∈ List.range' (start + 1) n,
            (x :: rest).filter (fun y => key y = a) = rest.filter fun y => key y = a := fun a member => by
          have := (List.mem_range'_1.1 member).1
          exact List.filter_cons_of_neg (by simp only [decide_eq_true_eq]; omega)
        rw [List.filter_cons_of_pos (by simpa using here), notHere, List.flatMap_congr behind,
          ih sorted others, List.singleton_append]
      · rw [List.filter_cons_of_neg (by simpa using here), notHere, List.nil_append]
        exact ih (.cons first sorted) (List.forall_mem_cons.2 ⟨by omega, others⟩)

/-- There is one label at most at an address. -/
theorem Laid.labelsAt_eq (laid : p.Laid) (a : Nat) :
    p.labelsAt a = p.entries.filterMap fun e => if e.2 = a then some e.1 else none := by
  refine List.mergeSort_of_pairwise (laid.sorted.filterMap _ fun e e' before l found l' found' => ?_)
  simp only [Option.ite_none_right_eq_some] at found found'
  omega

/-- At each address the entries are those of its labels. -/
theorem Laid.map_labelsAt (laid : p.Laid) (a : Nat) :
    ((p.labelsAt a).map fun l => (l, a)) = p.entries.filter fun e => e.2 = a := by
  rw [laid.labelsAt_eq, List.map_filterMap, ← List.filterMap_eq_filter]
  refine List.filterMap_congr fun e _ => ?_
  by_cases here : e.2 = a
  · subst here
    simp [Option.guard]
  · simp [Option.guard, here]

/-- The entries in the order of their addresses are the entries. -/
theorem Laid.regrouped_eq (laid : p.Laid) : p.regrouped = p := by
  have entries : p.entriesAt (List.range' 0 p.size) = p.entries := by
    rw [entriesAt, List.flatMap_congr fun a _ => laid.map_labelsAt a]
    refine flatMap_filter_range' laid.sorted fun e isEntry => ⟨Nat.zero_le _, ?_⟩
    rw [Nat.zero_add]
    exact laid.inside e isEntry
  rw [regrouped, entries]

/-- A program whose entries are in order reads back. -/
theorem parse?_text (laid : p.Laid) (writable : ∀ i ∈ p.code.toList, i.Writable)
    (words : ∀ e ∈ p.entries, Text.IsWord e.1) : parse? p.text = .ok p := by
  rw [parse?_text_regrouped writable words, laid.regrouped_eq]

end Program

end ProofWalk
