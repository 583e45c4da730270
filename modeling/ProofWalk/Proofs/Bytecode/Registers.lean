import Mathlib.Data.List.Perm.Subperm
import ProofWalk.Proofs.Bytecode.Names
import ProofWalk.Proofs.Logic.Variables

/-!
# Registers and numbers in compiled code

A variable of a clause is one of those that its code has met when the code of a feature needs it, and it has
a register of its own. Since every register is named by an instruction, a clause has no more variables than
its code has instructions, and the numbers in its instructions are no larger than that either.

## Main definitions

* `Instruction.numbers` — the counts and positions in an instruction
* `Within` — code whose numbers are bounded

## Main results

* `Rule.registers_le` — a clause has no more registers than its code has instructions
* `Rule.within_compile` — the numbers of compiled code are bounded by its length
* `Rule.weight_bound` — the weight of a feature is given by a variable of a goal
-/

namespace ProofWalk

namespace Registers

theorem operand_eq {vars : List Variable} {v : Variable} (known : v ∈ vars) :
    (⟨vars⟩ : Registers).operand v = (vars.idxOf v : Int) - vars.length := by
  have found : vars.findIdx? (· == v) = some (vars.idxOf v) := by
    rw [List.findIdx?_eq_some_iff_findIdx_eq]
    exact ⟨List.idxOf_lt_length_of_mem known, rfl⟩
  simp [operand, found]

end Registers

theorem operand_inj {vars : List Variable} {v w : Variable} (left : v ∈ vars) (right : w ∈ vars) :
    (⟨vars⟩ : Registers).operand v = (⟨vars⟩ : Registers).operand w ↔ v = w := by
  rw [Registers.operand_eq left, Registers.operand_eq right]
  refine ⟨fun same => (List.idxOf_inj left).1 (by omega), ?_⟩
  rintro rfl
  rfl

/-! ### Variables that have been met -/

section

variable {regs : Registers} {seen : List Variable} {v : Variable}

theorem mem_compileHead {argument : Int} {terms : List Term} :
    v ∈ (compileHead regs seen argument terms).2 ↔ v ∈ seen ∨ .var v ∈ terms := by
  induction terms generalizing seen argument with
  | nil => simp [compileHead]
  | cons t rest ih =>
    cases t with
    | constant c => simp [compileHead, ih]
    | var w =>
      by_cases met : w ∈ seen
      · simp only [compileHead, if_pos met, ih, List.mem_cons, Term.var.injEq]
        constructor
        · tauto
        · rintro (known | rfl | later) <;> tauto
      · simp only [compileHead, if_neg met, ih, List.mem_cons, Term.var.injEq]
        tauto

theorem mem_compileArgs {terms : List Term} :
    v ∈ (compileArgs regs seen terms).2 ↔ v ∈ seen ∨ .var v ∈ terms := by
  induction terms generalizing seen with
  | nil => simp [compileArgs]
  | cons t rest ih =>
    cases t with
    | constant c => simp [compileArgs, ih]
    | var w =>
      by_cases met : w ∈ seen
      · simp only [compileArgs, if_pos met, ih, List.mem_cons, Term.var.injEq]
        constructor
        · tauto
        · rintro (known | rfl | later) <;> tauto
      · simp only [compileArgs, if_neg met, ih, List.mem_cons, Term.var.injEq]
        tauto

theorem mem_compileGoals {goals : List Goal} :
    v ∈ (compileGoals regs seen goals).2 ↔ v ∈ seen ∨ ∃ g ∈ goals, .var v ∈ g.args := by
  induction goals generalizing seen with
  | nil => simp [compileGoals]
  | cons g rest ih => simp [compileGoals, ih, mem_compileArgs, or_assoc]

end

/-- A weight is given by a variable that has been met. -/
theorem mem_of_compileFeature {regs : Registers} {bound : List Variable} {f : FeatureTemplate}
    {code : List Instruction} (compiled : compileFeature regs bound f = .ok code) {v : Variable}
    (given : f.weight = .bound v) : v ∈ bound := by
  obtain ⟨args, -, others⟩ := Except.bind_eq_ok.1 compiled
  obtain ⟨weight, compiledWeight, -⟩ := Except.bind_eq_ok.1 others
  rw [given, compileWeight] at compiledWeight
  split at compiledWeight
  · rename_i met
    exact met
  · cases compiledWeight

namespace Rule

variable {r : Rule} {start number : Nat} {code : List Instruction}

/-- The weight of a feature is given by a variable of a goal. -/
theorem weight_bound (compiled : r.compile start number = .ok code) {f : FeatureTemplate}
    (isFeature : f ∈ r.features) {v : Variable} (given : f.weight = .bound v) :
    ∃ g ∈ r.goals, .var v ∈ g.args := by
  obtain ⟨plain, ranging, behind, pieces⟩ := pieces_of_compile compiled
  have inHead (met : v ∈ r.met) : ∃ g ∈ r.goals, .var v ∈ g.args := by
    rw [Rule.met, mem_compileHead] at met
    exact ⟨r.lhs, r.lhs_mem_goals, met.resolve_left List.not_mem_nil⟩
  by_cases isPlain : f.findall.isEmpty = true
  · obtain ⟨piece, -, made⟩ := exists_of_forall₂ (Except.forall₂_of_mapM pieces.plain).flip isFeature
    simp only [plainCode, if_pos isPlain] at made
    obtain ⟨feature, compiledFeature, -⟩ := Except.map_eq_ok.1 made
    exact inHead (mem_of_compileFeature compiledFeature given)
  · have isRanging : f ∈ r.features.filter fun f => !f.findall.isEmpty :=
      List.mem_filter.2 ⟨isFeature, by simpa using isPlain⟩
    obtain ⟨piece, -, made⟩ := exists_of_forall₂ (Except.forall₂_of_mapM pieces.ranging).flip isRanging
    obtain ⟨feature, compiledFeature, -⟩ := Except.bind_eq_ok.1 made
    -- the goals that a feature ranges over are met before the feature is
    rcases mem_compileGoals.1 (mem_of_compileFeature compiledFeature given) with
      met | ⟨g, inFindall, isArgument⟩
    · exact inHead met
    · exact ⟨g, mem_goals_of_feature isFeature (List.mem_cons_of_mem _ inFindall), isArgument⟩

/-- Every register of a clause is mentioned. -/
theorem operand_mem {v : Variable} (isVar : v ∈ (Registers.ofRule r).order) :
    .register ((Registers.ofRule r).operand v) ∈ r.mentions number := by
  have inGoal {g : Goal} (isGoal : g ∈ r.goals) (inVars : v ∈ g.vars) :
      .register ((Registers.ofRule r).operand v) ∈ r.mentions number := by
    obtain ⟨t, isArgument, isVar⟩ := List.mem_filterMap.1 inVars
    cases t with
    | constant c => cases isVar
    | var w =>
      cases isVar
      exact mention_mem isGoal isArgument
  rcases List.mem_append.1 (mem_firstOccurrences.1 isVar) with inGoals | inWeights
  · obtain ⟨g, isGoal, inVars⟩ := List.mem_flatMap.1 inGoals
    refine inGoal ?_ inVars
    simp only [List.mem_cons, List.mem_append, List.mem_map, List.mem_flatMap] at isGoal
    rcases isGoal with rfl | (⟨f, isFeature, rfl⟩ | ⟨f, isFeature, inFindall⟩) | inBody
    · exact r.lhs_mem_goals
    · exact mem_goals_of_feature isFeature (List.mem_cons_self ..)
    · exact mem_goals_of_feature isFeature (List.mem_cons_of_mem _ inFindall)
    · exact mem_goals_of_mem_rhs inBody
  · obtain ⟨f, isFeature, given⟩ := List.mem_filterMap.1 inWeights
    have inWeight : .register ((Registers.ofRule r).operand v) ∈
        f.weight.mentions (.ofRule r) f.goal.functor := by
      cases isWeight : f.weight with
      | unit | fixed w =>
        rw [isWeight] at given
        cases given
      | bound w =>
        rw [isWeight] at given
        cases given
        exact List.mem_cons_self ..
    refine mem_mentions_of_feature isFeature ?_
    exact List.mem_append_right _ (List.mem_cons_of_mem _ (List.mem_append_right _ inWeight))

/-- A clause has no more registers than its code has instructions. -/
theorem registers_le (compiled : r.compile start number = .ok code) :
    (Registers.ofRule r).order.length ≤ code.length := by
  have apart : ((Registers.ofRule r).order.map fun v =>
      Mention.register ((Registers.ofRule r).operand v)).Nodup := by
    refine (nodup_firstOccurrences _).map_on fun v isVar w isVar' same => ?_
    exact (operand_inj isVar isVar').1 (Mention.register.inj same)
  have named : ((Registers.ofRule r).order.map fun v => Mention.register ((Registers.ofRule r).operand v)) ⊆
      ProofWalk.mentions code := by
    intro m member
    obtain ⟨v, isVar, rfl⟩ := List.mem_map.1 member
    exact (mem_mentions_compile compiled).2 (operand_mem isVar)
  calc (Registers.ofRule r).order.length
      = ((Registers.ofRule r).order.map fun v => Mention.register ((Registers.ofRule r).operand v)).length :=
        (List.length_map _).symm
    _ ≤ (ProofWalk.mentions code).length := (List.subperm_of_subset apart named).length_le
    _ ≤ code.length := length_mentions_le code

end Rule

/-! ### Numbers -/

/-- The counts and positions in an instruction; the addresses of searches are not among them. -/
def Instruction.numbers : Instruction → List Int
  | .allocate n | .beginFeature _ n => [n]
  | .pushFree n | .pushBound n | .featureBound n | .unifyConstant _ n => [n]
  | .takeArgument m n | .unifyBound m n => [m, n]
  | _ => []

/-- Code whose numbers are bounded. -/
def Within (bound : Nat) (code : List Instruction) : Prop :=
  ∀ i ∈ code, ∀ n ∈ i.numbers, n.natAbs ≤ bound

variable {limit : Nat}

@[simp] theorem within_nil : Within limit [] := fun _ member => by cases member

@[simp] theorem within_cons {i : Instruction} {code : List Instruction} :
    Within limit (i :: code) ↔ (∀ n ∈ i.numbers, n.natAbs ≤ limit) ∧ Within limit code :=
  List.forall_mem_cons

@[simp] theorem within_append {front back : List Instruction} :
    Within limit (front ++ back) ↔ Within limit front ∧ Within limit back := List.forall_mem_append

theorem Registers.operand_le (regs : Registers) (v : Variable) :
    (regs.operand v).natAbs ≤ regs.order.length := by
  unfold operand
  split
  · rename_i k found
    have := (List.findIdx?_eq_some_iff_getElem.1 found).1
    omega
  · omega

section

variable {regs : Registers} {seen bound : List Variable}

theorem within_compileHead (enough : regs.order.length ≤ limit) {argument : Int} {terms : List Term}
    (low : -(limit : Int) ≤ argument) (high : argument + terms.length ≤ limit) :
    Within limit (compileHead regs seen argument terms).1 := by
  induction terms generalizing seen argument with
  | nil => exact within_nil
  | cons t rest ih =>
    rw [List.length_cons] at high
    have others := fun seen => @ih seen (argument + 1) (by omega) (by omega)
    cases t with
    | constant c =>
      refine within_cons.2 ⟨?_, others _⟩
      simp only [Instruction.numbers, List.mem_singleton, forall_eq]
      omega
    | var v =>
      have := regs.operand_le v
      by_cases met : v ∈ seen <;>
      · simp only [compileHead, met, if_true, if_false, within_cons, others, and_true, Instruction.numbers,
          List.mem_cons, List.not_mem_nil, or_false, forall_eq_or_imp, forall_eq]
        omega

/-- There is an instruction for each argument of the head. -/
theorem length_le_compileHead (argument : Int) (terms : List Term) :
    terms.length ≤ (compileHead regs seen argument terms).1.length := by
  have := length_mentions_le (compileHead regs seen argument terms).1
  rwa [mentions_compileHead, List.length_map] at this

theorem within_compileArgs (enough : regs.order.length ≤ limit) (terms : List Term) :
    Within limit (compileArgs regs seen terms).1 := by
  induction terms generalizing seen with
  | nil => exact within_nil
  | cons t rest ih =>
    cases t with
    | constant c => simp [compileArgs, Instruction.numbers, ih]
    | var v =>
      have := (regs.operand_le v).trans enough
      by_cases met : v ∈ seen <;> simp [compileArgs, met, Instruction.numbers, ih, this]

theorem within_compileGoals (enough : regs.order.length ≤ limit) (goals : List Goal) :
    Within limit (compileGoals regs seen goals).1 := by
  induction goals generalizing seen with
  | nil => exact within_nil
  | cons g rest ih => simp [compileGoals, Instruction.numbers, within_compileArgs enough, ih]

theorem within_compileFeature (enough : regs.order.length ≤ limit) {f : FeatureTemplate}
    {code : List Instruction} (compiled : compileFeature regs bound f = .ok code)
    (short : code.length ≤ limit) : Within limit code := by
  obtain ⟨args, compiledArgs, others⟩ := Except.bind_eq_ok.1 compiled
  obtain ⟨weight, compiledWeight, equal⟩ := Except.bind_eq_ok.1 others
  cases equal
  have length := (Except.forall₂_of_mapM compiledArgs).length_eq
  have arity : f.goal.arity ≤ limit := by
    rw [Goal.arity, length]
    simp only [List.length_cons, List.length_append] at short
    omega
  have inArgs : Within limit args := by
    intro i member
    obtain ⟨t, -, made⟩ := Except.exists_of_mapM compiledArgs member
    unfold compileFeatureArg at made
    split at made
    · cases made
      simp [Instruction.numbers]
    · split at made <;> cases made
      simpa [Instruction.numbers] using (regs.operand_le _).trans enough
  have inWeight : Within limit weight := by
    unfold compileWeight at compiledWeight
    split at compiledWeight
    · cases compiledWeight
      exact within_nil
    · cases compiledWeight
      simp [Instruction.numbers]
    · split at compiledWeight <;> cases compiledWeight
      simpa [Instruction.numbers] using (regs.operand_le _).trans enough
  simp [Instruction.numbers, arity, inArgs, inWeight]

theorem within_compileFindall (enough : regs.order.length ≤ limit) {f : FeatureTemplate}
    {code : List Instruction} (compiled : compileFindall regs bound f = .ok code)
    (short : code.length ≤ limit) : Within limit code := by
  obtain ⟨feature, compiledFeature, equal⟩ := Except.bind_eq_ok.1 compiled
  cases equal
  have inFeature : Within limit feature := by
    refine within_compileFeature enough compiledFeature ?_
    simp only [List.length_append, List.length_cons] at short
    omega
  simp [Instruction.numbers, within_compileGoals enough, inFeature]

theorem within_placeFeatures {pieces : List (Option (List Instruction))}
    (within : ∀ piece, some piece ∈ pieces → piece.length ≤ limit → Within limit piece)
    {addresses : List Nat} (short : (placeFeatures pieces addresses).length ≤ limit) :
    Within limit (placeFeatures pieces addresses) := by
  induction pieces generalizing addresses with
  | nil => exact within_nil
  | cons piece rest ih =>
    have others := fun addresses => @ih (fun p member => within p (by simp [member])) addresses
    cases piece with
    | some code =>
      rw [placeFeatures, List.length_append] at short
      exact within_append.2 ⟨within code (by simp) (by omega), others addresses (by omega)⟩
    | none =>
      cases addresses with
      | nil => exact others [] short
      | cons address addresses =>
        rw [placeFeatures, List.length_cons] at short
        exact within_cons.2 ⟨by simp [Instruction.numbers], others addresses (by omega)⟩

end

namespace Rule

variable {r : Rule} {start number : Nat} {code : List Instruction}

theorem within_opening (enough : (Registers.ofRule r).order.length ≤ limit)
    (short : (r.opening number).length ≤ limit) : Within limit (r.opening number) := by
  unfold opening at short ⊢
  simp only [List.length_cons, List.length_append] at short
  have inHead : Within limit r.headCode := by
    -- there is an instruction for each argument of the head
    have arity : r.lhs.args.length ≤ r.headCode.length := length_le_compileHead _ _
    unfold headCode Goal.arity
    exact within_compileHead enough (by omega) (by omega)
  have inOwn : Within limit (if r.features.isEmpty then clauseFeature r.lhs number else []) := by
    by_cases none : r.features.isEmpty = true
    · -- the feature of a clause has three arguments
      rw [if_pos none] at short ⊢
      simp only [clauseFeature, List.length_cons] at short
      have three : 3 ≤ limit := by omega
      simp [clauseFeature, Instruction.numbers, three]
    · rw [if_neg none]
      exact within_nil
  simp only [within_cons, within_append, inHead, inOwn]
  simp [Instruction.numbers, enough]

/-- The numbers in the code of a clause are bounded by its length. -/
theorem within_compile (compiled : r.compile start number = .ok code) (short : code.length ≤ limit) :
    Within limit code := by
  have enough := (r.registers_le compiled).trans short
  obtain ⟨plain, ranging, behind, pieces⟩ := pieces_of_compile compiled
  have lengths := congrArg List.length pieces.code
  rw [front, List.length_append, List.length_append, List.length_append] at lengths
  have inOpening : Within limit (r.opening number) := within_opening enough (by omega)
  have inFeatures : Within limit (placeFeatures plain (startAddresses behind ranging)) := by
    refine within_placeFeatures (fun piece member shortPiece => ?_) (by omega)
    obtain ⟨f, -, compiledFeature⟩ := pieces.exists_feature member
    exact within_compileFeature enough compiledFeature shortPiece
  have inClosing : Within limit r.closing := by
    simp [closing, Instruction.numbers, within_compileGoals enough]
  have inRanging : Within limit ranging.flatten := by
    intro i member
    obtain ⟨piece, isPiece, inPiece⟩ := List.mem_flatten.1 member
    obtain ⟨f, -, compiledFindall⟩ := pieces.exists_findall isPiece
    have shortPiece := (List.sublist_flatten_of_mem isPiece).length_le
    exact within_compileFindall enough compiledFindall (by omega) i inPiece
  rw [pieces.code, front]
  simp only [within_append]
  exact ⟨⟨⟨inOpening, inFeatures⟩, inClosing⟩, inRanging⟩

end Rule

end ProofWalk
