import Mathlib.Algebra.GroupWithZero.Nat
import ProofWalk.Bytecode.Compiler
import ProofWalk.Proofs.Results

/-!
# The pieces of a clause

A clause is compiled piece by piece: its head, its features and its goals with the return behind them. A feature
that ranges over goals has a search instruction in its place, and its code lies behind the return, at the
address that this instruction names.

## Main definitions

* `Rule.headCode`, `Rule.met` — the code of a head, and the variables that it meets
* `plainCode` — the code of a feature at its place
* `Rule.front` — the code of a clause up to its return
* `Rule.Pieces` — the pieces that the code of a clause is made of

## Main results

* `Rule.pieces_of_compile` — what it means that a clause has been compiled
* `length_placeFeatures` — the code of features is as long as the compiler reckons
-/

namespace ProofWalk

/-- The code of a feature: its own where it ranges over no goals. -/
def plainCode (regs : Registers) (bound : List Variable) (f : FeatureTemplate) :
    Except ClauseFault (Option (List Instruction)) :=
  if f.findall.isEmpty then some <$> compileFeature regs bound f else pure none

/-- The code of features is as long as the compiler reckons. -/
theorem length_placeFeatures {regs : Registers} {bound : List Variable}
    {features : List FeatureTemplate} {plain : List (Option (List Instruction))}
    (addresses : List Nat) (compiled : features.mapM (plainCode regs bound) = .ok plain)
    (enough : addresses.length = (features.filter fun f => !f.findall.isEmpty).length) :
    (placeFeatures plain addresses).length =
      (plain.map fun code => (code.map List.length).getD 1).sum := by
  have made := Except.forall₂_of_mapM compiled
  clear compiled
  induction made generalizing addresses with
  | nil => rfl
  | @cons f _ rest plains compiledFirst _ ih =>
    unfold plainCode at compiledFirst
    by_cases single : f.findall.isEmpty
    · rw [if_pos single] at compiledFirst
      obtain ⟨piece, -, rfl⟩ := Except.map_eq_ok.1 compiledFirst
      rw [List.filter_cons_of_neg (by simp [single])] at enough
      simp [placeFeatures, ih addresses enough]
    · rw [if_neg single] at compiledFirst
      cases compiledFirst
      rw [List.filter_cons_of_pos (by simp [single]), List.length_cons] at enough
      obtain ⟨address, addresses, rfl⟩ := List.exists_cons_of_length_eq_add_one enough
      simp only [List.length_cons, Nat.add_right_cancel_iff] at enough
      simp [placeFeatures, ih addresses enough, Nat.add_comm]

/-- One piece is left out for each feature that ranges over goals. -/
theorem countP_isNone_plainCode {regs : Registers} {bound : List Variable} {features : List FeatureTemplate}
    {plain : List (Option (List Instruction))} (compiled : features.mapM (plainCode regs bound) = .ok plain) :
    plain.countP (·.isNone) = (features.filter fun f => !f.findall.isEmpty).length := by
  rw [← List.countP_eq_length_filter]
  have made := Except.forall₂_of_mapM compiled
  clear compiled
  induction made with
  | nil => rfl
  | @cons f piece features plain here _ ih =>
    unfold plainCode at here
    by_cases single : f.findall.isEmpty
    · rw [if_pos single] at here
      obtain ⟨code, -, rfl⟩ := Except.map_eq_ok.1 here
      simp [single, ih]
    · rw [if_neg single] at here
      cases here
      simp [single, ih]

/-- Features that range over goals take as many addresses as there are of them. -/
theorem placeFeatures_append {first : List (Option (List Instruction))} {addresses : List Nat}
    (enough : addresses.length = first.countP (·.isNone)) (second : List (Option (List Instruction)))
    (others : List Nat) :
    placeFeatures (first ++ second) (addresses ++ others) =
      placeFeatures first addresses ++ placeFeatures second others := by
  induction first generalizing addresses with
  | nil =>
    rw [List.countP_nil, List.length_eq_zero_iff] at enough
    rw [enough]
    rfl
  | cons piece first ih =>
    cases piece with
    | some code =>
      rw [List.cons_append, placeFeatures, placeFeatures, ih (by simpa using enough), List.append_assoc]
    | none =>
      cases addresses with
      | nil => simp at enough
      | cons address addresses =>
        rw [List.cons_append, List.cons_append, placeFeatures, placeFeatures, ih (by simpa using enough),
          List.cons_append]

theorem length_startAddresses (start : Nat) (pieces : List (List Instruction)) :
    (startAddresses start pieces).length = pieces.length := by
  induction pieces generalizing start with
  | nil => rfl
  | cons piece rest ih => rw [startAddresses, List.length_cons, List.length_cons, ih]

namespace Rule

variable {r : Rule} {start number : Nat} {code : List Instruction}

/-- The code of a head. -/
def headCode (r : Rule) : List Instruction :=
  (compileHead (.ofRule r) [] (-(r.lhs.arity : Int)) r.lhs.args).1

/-- The variables that a head meets. -/
def met (r : Rule) : List Variable :=
  (compileHead (.ofRule r) [] (-(r.lhs.arity : Int)) r.lhs.args).2

/-- The code of a clause before its features. A clause that states none has one of its own. -/
def opening (r : Rule) (number : Nat) : List Instruction :=
  .comment r.text :: .allocate (Registers.ofRule r).order.length :: (r.headCode ++
    .clearFeatures :: if r.features.isEmpty then clauseFeature r.lhs number else [])

/-- The code of the goals. -/
def closing (r : Rule) : List Instruction := (compileGoals (.ofRule r) r.met r.rhs).1 ++ [.ret]

/-- The code of a clause up to its return. -/
def front (r : Rule) (number : Nat) (plain : List (Option (List Instruction))) (addresses : List Nat) :
    List Instruction :=
  r.opening number ++ placeFeatures plain addresses ++ r.closing

/-- The pieces that the code of a clause is made of: those of its features, and `behind` the return those of
the features that range over goals. -/
structure Pieces (r : Rule) (start number : Nat) (code : List Instruction)
    (plain : List (Option (List Instruction))) (ranging : List (List Instruction)) (behind : Nat) :
    Prop where
  code : code = r.front number plain (startAddresses behind ranging) ++ ranging.flatten
  behind : start + (r.front number plain (startAddresses behind ranging)).length = behind
  plain : r.features.mapM (plainCode (.ofRule r) r.met) = .ok plain
  ranging : (r.features.filter fun f => !f.findall.isEmpty).mapM (compileFindall (.ofRule r) r.met) =
    .ok ranging

/-- A clause that has been compiled has its pieces. -/
theorem pieces_of_compile (compiled : r.compile start number = .ok code) :
    ∃ plain ranging behind, r.Pieces start number code plain ranging behind := by
  unfold Rule.compile at compiled
  simp only at compiled
  split at compiled
  case h_2 => cases compiled
  case h_1 result done =>
    cases compiled
    obtain ⟨plain, compiledPlain, others⟩ := Except.bind_eq_ok.1 done
    obtain ⟨ranging, compiledRanging, equal⟩ := Except.bind_eq_ok.1 others
    have opened : (if r.features.isEmpty then
        .comment r.text :: .allocate (Registers.ofRule r).order.length :: (r.headCode ++ [.clearFeatures]) ++
          clauseFeature r.lhs number
        else .comment r.text :: .allocate (Registers.ofRule r).order.length ::
          (r.headCode ++ [.clearFeatures])) = r.opening number := by
      unfold opening
      split <;> simp
    have length := fun start => length_placeFeatures (startAddresses start ranging) compiledPlain
      (by rw [length_startAddresses, (Except.forall₂_of_mapM compiledRanging).length_eq])
    cases equal
    refine ⟨plain, ranging, start + (r.opening number).length +
      (plain.map fun code => (code.map List.length).getD 1).sum + r.closing.length, ?_, ?_, compiledPlain,
      compiledRanging⟩
    · rw [front, ← opened]
      rfl
    · rw [front, List.length_append, List.length_append, length]
      omega

/-- The code of a feature that ranges over no goals is that of its place. -/
theorem Pieces.exists_feature {plain : List (Option (List Instruction))} {ranging : List (List Instruction)}
    {behind : Nat} (pieces : r.Pieces start number code plain ranging behind) {piece : List Instruction}
    (member : some piece ∈ plain) : ∃ f ∈ r.features, compileFeature (.ofRule r) r.met f = .ok piece := by
  obtain ⟨f, isFeature, made⟩ := Except.exists_of_mapM pieces.plain member
  unfold plainCode at made
  split at made
  · obtain ⟨piece', compiledFeature, same⟩ := Except.map_eq_ok.1 made
    cases same
    exact ⟨f, isFeature, compiledFeature⟩
  · cases made

/-- The code behind the return is that of the features that range over goals. -/
theorem Pieces.exists_findall {plain : List (Option (List Instruction))} {ranging : List (List Instruction)}
    {behind : Nat} (pieces : r.Pieces start number code plain ranging behind) {piece : List Instruction}
    (member : piece ∈ ranging) : ∃ f ∈ r.features, compileFindall (.ofRule r) r.met f = .ok piece := by
  obtain ⟨f, isRanging, made⟩ := Except.exists_of_mapM pieces.ranging member
  exact ⟨f, (List.mem_filter.1 isRanging).1, made⟩

end Rule

end ProofWalk
