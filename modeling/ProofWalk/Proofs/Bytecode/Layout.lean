import Mathlib.Data.List.Forall2
import ProofWalk.Proofs.Machine.Reporting

/-!
# The layout of compiled rules

Where the compiler puts what. The code of every clause lies at the address that the program lists for
it, and the addresses of a predicate follow the order of its clauses. Within a clause the code of a
feature that ranges over goals lies behind the return, at the address that its search instruction
names.

## Main definitions

* `numbered` — rules with their numbers among those of their predicates
* `ClauseAt` — the code of a clause lies at an address

## Main results

* `clausesAt_of_compileRules` — the addresses of a predicate are those of its clauses
-/

namespace ProofWalk

/-- Rules with their numbers among those of their predicates; `labels` are the predicates of the
rules before them. -/
def numberedFrom (labels : List String) : List Rule → List (Rule × Nat)
  | [] => []
  | r :: rest => (r, labels.count r.lhs.label + 1) :: numberedFrom (r.lhs.label :: labels) rest

/-- Rules with their numbers among those of their predicates. -/
def numbered (rules : List Rule) : List (Rule × Nat) := numberedFrom [] rules

theorem map_fst_numberedFrom (labels : List String) (rules : List Rule) :
    (numberedFrom labels rules).map Prod.fst = rules := by
  induction rules generalizing labels with
  | nil => rfl
  | cons r rest ih => rw [numberedFrom, List.map_cons, ih]

theorem map_fst_numbered (rules : List Rule) : (numbered rules).map (·.1) = rules :=
  map_fst_numberedFrom [] rules

theorem fst_mem_of_mem_numbered {rules : List Rule} {clause : Rule × Nat}
    (member : clause ∈ numbered rules) : clause.1 ∈ rules := by
  rw [← map_fst_numbered rules]
  exact List.mem_map_of_mem member

/-- The code of a clause: its head, its features and its goals. -/
structure ClauseAt (code : Code) (start : Nat) (rule : Rule) (number : Nat) : Prop where
  placed : ∃ plain addresses,
    rule.features.mapM (plainCode (.ofRule rule)
      (compileHead (.ofRule rule) [] (-(rule.lhs.arity : Int)) rule.lhs.args).2) = .ok plain ∧
    RangingAt code (.ofRule rule)
      (compileHead (.ofRule rule) [] (-(rule.lhs.arity : Int)) rule.lhs.args).2 rule.features
      addresses ∧
    code.HasAt start (.comment rule.text :: .allocate (Registers.ofRule rule).order.length ::
      ((compileHead (.ofRule rule) [] (-(rule.lhs.arity : Int)) rule.lhs.args).1 ++
        (.clearFeatures :: ((if rule.features.isEmpty then clauseFeature rule.lhs number else []) ++
          (placeFeatures plain addresses ++
            ((compileGoals (.ofRule rule)
              (compileHead (.ofRule rule) [] (-(rule.lhs.arity : Int)) rule.lhs.args).2
              rule.rhs).1 ++ [.ret]))))))

/-- Pieces of code one behind the other lie at their start addresses. -/
theorem rangingAt_startAddresses {code : Code} {regs : Registers} {bound : List Variable}
    {features : List FeatureTemplate} {pieces : List (List Instruction)} {start : Nat}
    (compiled : (features.filter fun f => !f.findall.isEmpty).mapM (compileFindall regs bound) =
      .ok pieces)
    (placed : code.HasAt start pieces.flatten) :
    RangingAt code regs bound features (startAddresses start pieces) := by
  unfold RangingAt
  have made := Except.forall₂_of_mapM compiled
  clear compiled
  generalize features.filter (fun f => !f.findall.isEmpty) = ranging at made ⊢
  induction made generalizing start with
  | nil => exact .nil
  | cons first _ ih =>
    rw [List.flatten_cons] at placed
    exact .cons ⟨_, first, placed.left⟩ (ih placed.right)

/-- The code of a compiled clause. -/
theorem Rule.clauseAt_of_compile {rule : Rule} {code : Code} {start number : Nat}
    {instructions : List Instruction} (compiled : rule.compile start number = .ok instructions)
    (placed : code.HasAt start instructions) : ClauseAt code start rule number := by
  obtain ⟨plain, ranging, behind, pieces⟩ := Rule.pieces_of_compile compiled
  rw [pieces.code] at placed
  have after := placed.right
  rw [pieces.behind] at after
  refine ⟨plain, _, pieces.plain, rangingAt_startAddresses pieces.ranging after, ?_⟩
  have front := placed.left
  simp only [Rule.front, Rule.opening, Rule.closing, List.cons_append, List.append_assoc] at front
  exact front

/-! ### Programs -/

/-- A clause lies in a program at the address of an entry for its predicate. -/
structure EntryOf (p : Program) (clause : Rule × Nat) (entry : String × Nat) : Prop where
  label : entry.1 = clause.1.lhs.label
  placed : ∃ instructions, clause.1.compile entry.2 clause.2 = .ok instructions ∧
    ∀ k < instructions.length, p.code[entry.2 + k]? = instructions[k]?

/-- Code that is added leaves what is there where it is. -/
private theorem EntryOf.append {p p' : Program} {clause : Rule × Nat} {entry : String × Nat}
    (here : EntryOf p clause entry) (kept : ∀ i < p.code.size, p'.code[i]? = p.code[i]?) :
    EntryOf p' clause entry := by
  obtain ⟨label, instructions, compiled, placed⟩ := here
  refine ⟨label, instructions, compiled, fun k inside => ?_⟩
  have found := placed k inside
  rw [List.getElem?_eq_getElem inside] at found
  rw [kept _ (Array.getElem?_eq_some_iff.1 found).1, placed k inside]

/-- Every rule that is added gets an entry, and its code lies there. -/
theorem entries_of_compileOnto {p p' : Program} {labels : List String} {rules : List Rule}
    (compiled : compileOnto p labels rules = .ok p') :
    (∀ i < p.code.size, p'.code[i]? = p.code[i]?) ∧
    ∃ added, p'.entries = p.entries ++ added ∧
      List.Forall₂ (EntryOf p') (numberedFrom labels rules) added := by
  induction rules generalizing p labels with
  | nil =>
    cases compiled
    exact ⟨fun _ _ => rfl, [], by simp, .nil⟩
  | cons r rest ih =>
    obtain ⟨instructions, compiledRule, others⟩ := Except.bind_eq_ok.1 compiled
    obtain ⟨kept, added, entries, forall₂⟩ := ih others
    have size : (p.append [r.lhs.label] instructions).code.size =
        p.code.size + instructions.length := by simp [Program.append]
    refine ⟨fun i inside => ?_, (r.lhs.label, p.size) :: added, ?_, .cons ⟨rfl, ?_⟩ forall₂⟩
    · rw [kept i (by omega), Program.append, Array.getElem?_append_left inside]
    · rw [entries, Program.append]
      simp
    · refine ⟨instructions, compiledRule, fun k inside => ?_⟩
      rw [kept _ (by rw [size]; exact Nat.add_lt_add_left inside _)]
      change (p.code ++ instructions.toArray)[p.code.size + k]? = _
      rw [Array.getElem?_append_right (Nat.le_add_right ..)]
      simp

/-- The addresses of a predicate are those at which its clauses lie, in their order. -/
theorem clausesAt_of_compileRules (code : Code) {rules : List Rule}
    (compiled : compileRules rules = .ok code.program) (label : String) :
    List.Forall₂ (fun clause address => ClauseAt code address clause.1 clause.2)
      ((numbered rules).filter fun clause => clause.1.lhs.label = label)
      (code.program.addresses label) := by
  obtain ⟨-, added, entries, forall₂⟩ := entries_of_compileOnto compiled
  rw [Program.addresses, entries, Program.empty, List.nil_append]
  change List.Forall₂ (EntryOf code.program) (numbered rules) added at forall₂
  clear entries
  generalize numbered rules = clauses at forall₂
  induction forall₂ with
  | nil => exact .nil
  | @cons clause entry clauses rest here others ih =>
    obtain ⟨isLabel, instructions, compiledClause, placed⟩ := here
    have inCode : code.HasAt entry.2 instructions := by
      intro k inside
      have found := placed k inside
      rw [List.getElem?_eq_getElem inside] at found
      unfold Code.fetch? Program.size
      rw [if_pos (Array.getElem?_eq_some_iff.1 found).1, placed k inside]
    by_cases same : clause.1.lhs.label = label
    · rw [List.filter_cons_of_pos (by simpa using same),
        List.filterMap_cons_some (b := entry.2) (by simp [isLabel, same])]
      exact .cons (Rule.clauseAt_of_compile compiledClause inCode) ih
    · rw [List.filter_cons_of_neg (by simpa using same),
        List.filterMap_cons_none (by simp [isLabel, same])]
      exact ih

end ProofWalk
