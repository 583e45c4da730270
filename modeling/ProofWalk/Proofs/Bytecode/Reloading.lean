import ProofWalk.Logic.Parser
import ProofWalk.Proofs.Bytecode.Blocks
import ProofWalk.Proofs.Bytecode.Registers
import ProofWalk.Proofs.Bytecode.Saved
import ProofWalk.Proofs.Bytecode.Names
import ProofWalk.Proofs.Logic.RuleTexts

/-!
# Reloading compiled rules

The rules of a file are compiled into a program that can be saved and loaded again. All names that the program
mentions are legible, its clauses begin at rising addresses, and its numbers are bounded by its size. So it
reads back as it was compiled if, and only if, none of the constants in its rules holds a tab.

## Main results

* `Rule.isField_compile_iff` — which constants of a rule are in the way
* `Program.laid_of_compileRules` — the clauses of compiled programs begin at rising addresses
* `Program.parse?_text_iff` — which compiled programs read back
-/

namespace ProofWalk

/-! ### Names in compiled code -/

theorem isWord_predicateLabel {functor : String} (word : Text.IsWord functor) (arity : Nat) :
    Text.IsWord (predicateLabel functor arity) := by
  constructor
  · rw [predicateLabel, String.toList_ofList]
    simp
  · intro c member
    rw [predicateLabel, String.toList_ofList, List.mem_append, List.mem_cons] at member
    rcases member with inFunctor | rfl | inArity
    · exact word.ink c inFunctor
    · decide
    · exact Text.isBlank_of_isDigit (Text.isDigit_of_mem_natDigits inArity)

namespace Mention

/-- What is mentioned is legible. -/
def IsLegible : Mention → Prop
  | constant s | label s | functor s | comment s => Legible s
  | register _ => True

/-- A name that is a word is mentioned, or a register. -/
def IsWord : Mention → Prop
  | constant s | label s | functor s => Text.IsWord s
  | register _ => True
  | comment _ => False

theorem IsWord.isLegible {m : Mention} (word : m.IsWord) : m.IsLegible := by
  cases m with
  | constant s | label s | functor s => exact Text.IsWord.legible word
  | register k => trivial
  | comment s => exact word.elim

theorem IsWord.isField {m : Mention} (word : m.IsWord) : m.IsField := by
  intro s isName
  cases m with
  | constant s | label s | functor s =>
    cases isName
    exact Text.IsWord.not_mem_tab word
  | register k => cases isName
  | comment s => cases isName

end Mention

/-- An instruction is printable if what it mentions is legible. -/
theorem Instruction.printable_of_mentions {i : Instruction} (legible : ∀ m ∈ i.mentions, m.IsLegible) :
    i.Printable := by
  intro o member
  rcases cases_of_mem_operands member with rfl | ⟨m, isMention, isName⟩ | ⟨n, rfl⟩
  · exact legible (.comment o) (List.mem_singleton_self _)
  · have isLegible := legible m isMention
    cases m <;> cases isName <;> exact isLegible
  · exact (isWord_intText n).legible

namespace Rule

variable {r : Rule} {start number : Nat} {code : List Instruction} {m : Mention}

/-- All that the code of a rule mentions are its text, the constants of its goals, words and registers. -/
theorem Mentions.cases (mentions : r.Mentions m) (neat : ∀ g ∈ r.goals, g.Neat) :
    m = .comment r.text ∨ (∃ g ∈ r.goals, ∃ c, .constant c ∈ g.args ∧ m = .constant c) ∨ m.IsWord := by
  cases mentions with
  | text => exact .inl rfl
  | @argument g t isGoal isArgument =>
    cases t with
    | constant c => exact .inr (.inl ⟨g, isGoal, c, isArgument, rfl⟩)
    | var v => exact .inr (.inr trivial)
  | label isGoal => exact .inr (.inr (isWord_predicateLabel (neat _ isGoal).functor _))
  | functor isGoal => exact .inr (.inr (neat _ isGoal).functor)
  | reserved => exact .inr (.inr ⟨by simp, by simp [Text.isBlank]⟩)
  | name isGoal => exact .inr (.inr (neat _ isGoal).functor)
  | number n => exact .inr (.inr (Instruction.isWord_intText n))
  | weight w => exact .inr (.inr (Decimal.isWord_plain w))
  | weightOf v => exact .inr (.inr trivial)

/-- What the code of a rule mentions is legible. -/
theorem isLegible_compile (neat : ∀ g ∈ r.goals, g.Neat) (compiled : r.compile start number = .ok code) :
    ∀ m ∈ ProofWalk.mentions code, m.IsLegible := by
  have text : Legible r.text := Rule.legible_text neat fun f isFeature v given => by
    obtain ⟨g, isGoal, isArgument⟩ := weight_bound compiled isFeature given
    exact ((neat g isGoal).args _ isArgument).line
  intro m member
  rcases (mentions_of_mem ((mem_mentions_compile compiled).1 member)).cases neat with
    rfl | ⟨g, isGoal, c, isArgument, rfl⟩ | word
  · exact text
  · exact (neat g isGoal).args _ isArgument
  · exact word.isLegible

/-- The names that the code of a rule mentions hold no tab just if its constants hold none. -/
theorem isField_compile_iff (neat : ∀ g ∈ r.goals, g.Neat) (compiled : r.compile start number = .ok code) :
    (∀ m ∈ ProofWalk.mentions code, m.IsField) ↔
      ∀ g ∈ r.goals, ∀ c, .constant c ∈ g.args → '\t' ∉ c.toList := by
  constructor
  · intro fields g isGoal c isArgument
    exact fields (.constant c) ((mem_mentions_compile compiled).2 (mention_mem isGoal isArgument)) c rfl
  · intro constants m member
    rcases (mentions_of_mem ((mem_mentions_compile compiled).1 member)).cases neat with
      rfl | ⟨g, isGoal, c, isArgument, rfl⟩ | word
    · exact fun s isName => by cases isName
    · rintro s ⟨⟩
      exact constants g isGoal c isArgument
    · exact word.isField

/-- The numbers in the code of a clause fit in words if its addresses do. -/
theorem fits_compile (compiled : r.compile start number = .ok code)
    (small : start + code.length < Text.wordLimit / 2) : ∀ i ∈ code, i.Fits := by
  intro i member
  have within := within_compile compiled (Nat.le_refl _) i member
  have searches := (block_of_compile compiled).2
  cases i with
  | findall address =>
    have inside := searches address (List.mem_filterMap.2 ⟨_, member, rfl⟩)
    change address < Text.wordLimit
    omega
  | allocate n | beginFeature s n =>
    have := within n (List.mem_singleton_self _)
    change n < Text.wordLimit
    omega
  | pushFree n | pushBound n | featureBound n | unifyConstant s n =>
    have := within n (List.mem_singleton_self _)
    constructor <;> omega
  | takeArgument m n | unifyBound m n =>
    have := within m (List.mem_cons_self ..)
    have := within n (List.mem_cons_of_mem _ (List.mem_singleton_self _))
    refine ⟨⟨?_, ?_⟩, ?_, ?_⟩ <;> omega
  | _ => trivial

end Rule

/-! ### Compiled programs -/

namespace Program

variable {p p' : Program} {rules : List Rule}

/-- A clause that is added lies behind the others. -/
theorem Laid.append (laid : p.Laid) (label : String) {code : List Instruction} (some : 0 < code.length) :
    (p.append [label] code).Laid := by
  have size : (p.append [label] code).size = p.size + code.length := by simp [Program.size, Program.append]
  have entries : (p.append [label] code).entries = p.entries ++ [(label, p.size)] := rfl
  constructor
  · rw [entries, size]
    intro e member
    rcases List.mem_append.1 member with old | new
    · have := laid.inside e old
      omega
    · rw [List.mem_singleton.1 new]
      omega
  · rw [entries, List.pairwise_append]
    refine ⟨laid.sorted, List.pairwise_singleton _ _, fun e old e' new => ?_⟩
    rw [List.mem_singleton.1 new]
    exact laid.inside e old

theorem Laid.compileOnto {labels : List String} (laid : p.Laid)
    (compiled : ProofWalk.compileOnto p labels rules = .ok p') : p'.Laid := by
  induction rules generalizing p labels with
  | nil =>
    cases compiled
    exact laid
  | cons r rest ih =>
    obtain ⟨code, compiledRule, others⟩ := Except.bind_eq_ok.1 compiled
    exact ih (laid.append r.lhs.label (Rule.block_of_compile compiledRule).1.length_pos) others

/-- The clauses of a compiled program begin at rising addresses. -/
theorem laid_of_compileRules (compiled : compileRules rules = .ok p) : p.Laid := by
  have none : empty.Laid := by
    constructor
    · intro e member
      cases member
    · exact .nil
  exact none.compileOnto compiled

/-- The labels of a compiled program are words. -/
theorem isWord_of_compileRules (neat : ∀ r ∈ rules, ∀ g ∈ r.goals, g.Neat)
    (compiled : compileRules rules = .ok p) : ∀ e ∈ p.entries, Text.IsWord e.1 := by
  intro e member
  obtain ⟨-, added, entries, made⟩ := entries_of_compileOnto compiled
  rw [entries] at member
  obtain ⟨clause, isClause, entry⟩ := exists_of_forall₂ made member
  have isRule := fst_mem_of_mem_numbered isClause
  rw [entry.label]
  exact isWord_predicateLabel (neat _ isRule _ (Rule.lhs_mem_goals _)).functor _

/-- A program that is compiled from rules that have been read reads back from its text just if no constant in
the rules holds a tab. -/
theorem parse?_text_iff {source : String} (read : Rule.parseAll? source = .ok rules)
    (compiled : compileRules rules = .ok p) (small : p.size < Text.wordLimit / 2) :
    parse? p.text = .ok p ↔
      ∀ r ∈ rules, ∀ g ∈ r.goals, ∀ c, .constant c ∈ g.args → '\t' ∉ c.toList := by
  have neat := Rule.neat_of_parseAll? read
  obtain ⟨pieces, code, made⟩ := pieces_of_compileRules compiled
  constructor
  · -- what has been read holds no tab, and no constant of a rule goes unmentioned
    intro parsed r isRule
    have fields := isField_of_parse? parsed
    obtain ⟨piece, isPiece, start, number, compiledRule, -⟩ := exists_of_forall₂ made.flip isRule
    refine (Rule.isField_compile_iff (neat r isRule) compiledRule).1 fun m member => ?_
    obtain ⟨i, inPiece, isMention⟩ := List.mem_flatMap.1 member
    refine fields i ?_ m isMention
    rw [code]
    exact List.mem_flatten.2 ⟨piece, isPiece, inPiece⟩
  · -- all other names are words, and the text of a rule is put together again
    intro constants
    refine parse?_text (laid_of_compileRules compiled) (fun i member => ?_)
      (isWord_of_compileRules neat compiled)
    rw [code] at member
    obtain ⟨piece, isPiece, inPiece⟩ := List.mem_flatten.1 member
    obtain ⟨r, isRule, start, number, compiledRule, inside⟩ := exists_of_forall₂ made isPiece
    have inMentions {m : Mention} (isMention : m ∈ i.mentions) : m ∈ mentions piece :=
      List.mem_flatMap.2 ⟨i, inPiece, isMention⟩
    refine ⟨?_, fun m isMention => ?_, ?_⟩
    · exact Instruction.printable_of_mentions fun m isMention =>
        Rule.isLegible_compile (neat r isRule) compiledRule m (inMentions isMention)
    · exact (Rule.isField_compile_iff (neat r isRule) compiledRule).2 (constants r isRule) m
        (inMentions isMention)
    · exact Rule.fits_compile compiledRule (by omega) i inPiece

end Program

end ProofWalk
