import ProofWalk.Proofs.Bytecode.Clauses
import ProofWalk.Proofs.Decimal.RoundTrip
import ProofWalk.Proofs.Logic.Words
import ProofWalk.Proofs.Text.Fields

/-!
# What compiled code mentions

The compiler turns every argument of a goal into an instruction that mentions it: a constant by its name, a
variable by its register. Besides these the code of a clause mentions the predicates that it calls and the
functors of its features. The constants that it makes up are digits, weights and functors. So the code of tidy
rules begins features with words only, and the constants that it handles stand on one line.

## Main definitions

* `Mention` — what an instruction may mention
* `mentions` — what the instructions of some code mention, in their order
* `Rule.mentions` — what the code of a rule mentions
* `Rule.Mentions` — where a rule has that from
* `Instruction.Tidy`, `TidyCode` — words and lines in instructions

## Main results

* `mentions_compileGoals`, `mentions_compileFeature` — code mentions what its goals and features do
* `Rule.mem_mentions_compile` — the code of a clause mentions what its rule does
* `tidy_of_compileRules`, `Query.tidy_compile` — the code of tidy rules and queries is tidy
-/

namespace ProofWalk

/-- What an instruction may mention. -/
inductive Mention where
  | constant (name : String)
  | register (position : Int)
  | label (name : String)
  | functor (name : String)
  | comment (text : String)

/-- What an instruction mentions. -/
def Instruction.mentions : Instruction → List Mention
  | .comment text => [.comment text]
  | .pushConstant c | .unifyConstant c _ | .featureConstant c => [.constant c]
  | .pushFree r | .pushBound r | .takeArgument r _ | .unifyBound r _ | .featureBound r => [.register r]
  | .call label => [.label label]
  | .beginFeature functor _ => [.functor functor]
  | _ => []

/-- What the instructions of some code mention. -/
def mentions (code : List Instruction) : List Mention := code.flatMap Instruction.mentions

@[simp] theorem mentions_nil : mentions [] = [] := rfl

@[simp] theorem mentions_cons (i : Instruction) (code : List Instruction) :
    mentions (i :: code) = i.mentions ++ mentions code := rfl

@[simp] theorem mentions_append (front back : List Instruction) :
    mentions (front ++ back) = mentions front ++ mentions back := List.flatMap_append

theorem mentions_flatten (pieces : List (List Instruction)) :
    mentions pieces.flatten = pieces.flatMap mentions := by
  rw [mentions, List.flatten_eq_flatMap, List.flatMap_assoc]
  rfl

/-- An instruction mentions one thing at most. -/
theorem Instruction.length_mentions_le (i : Instruction) : i.mentions.length ≤ 1 := by
  cases i <;> simp [mentions]

theorem length_mentions_le (code : List Instruction) : (mentions code).length ≤ code.length := by
  induction code with
  | nil => exact Nat.le_refl 0
  | cons i rest ih =>
    rw [mentions_cons, List.length_append, List.length_cons]
    have := i.length_mentions_le
    omega

/-! ### Goals and features -/

/-- How an argument is mentioned. -/
def Registers.mention (regs : Registers) : Term → Mention
  | .constant c => .constant c
  | .var v => .register (regs.operand v)

/-- What the call of a goal mentions. -/
def Goal.mentions (regs : Registers) (g : Goal) : List Mention :=
  g.args.map regs.mention ++ [.label g.label]

/-- What the code of a weight mentions. -/
def FeatureWeight.mentions (regs : Registers) (functor : String) : FeatureWeight → List Mention
  | .unit => []
  | .fixed w => [.constant (Decimal.plain w), .constant functor]
  | .bound v => [.register (regs.operand v), .constant functor]

/-- What the code of a feature mentions: the goals that it ranges over, its functor, its arguments and its
weight. -/
def FeatureTemplate.mentions (regs : Registers) (f : FeatureTemplate) : List Mention :=
  f.findall.flatMap (Goal.mentions regs) ++
    .functor f.goal.functor :: (f.goal.args.map regs.mention ++ f.weight.mentions regs f.goal.functor)

variable {regs : Registers} {bound seen : List Variable}

@[simp] theorem mentions_compileHead (argument : Int) (terms : List Term) :
    mentions (compileHead regs seen argument terms).1 = terms.map regs.mention := by
  induction terms generalizing seen argument with
  | nil => rfl
  | cons t rest ih =>
    cases t with
    | constant c => simp [compileHead, Instruction.mentions, Registers.mention, ih]
    | var v => by_cases met : v ∈ seen <;> simp [compileHead, met, Instruction.mentions, Registers.mention, ih]

@[simp] theorem mentions_compileArgs (terms : List Term) :
    mentions (compileArgs regs seen terms).1 = terms.map regs.mention := by
  induction terms generalizing seen with
  | nil => rfl
  | cons t rest ih =>
    cases t with
    | constant c => simp [compileArgs, Instruction.mentions, Registers.mention, ih]
    | var v => by_cases met : v ∈ seen <;> simp [compileArgs, met, Instruction.mentions, Registers.mention, ih]

@[simp] theorem mentions_compileGoals (goals : List Goal) :
    mentions (compileGoals regs seen goals).1 = goals.flatMap (Goal.mentions regs) := by
  induction goals generalizing seen with
  | nil => rfl
  | cons g rest ih => simp [compileGoals, Instruction.mentions, Goal.mentions, ih]

theorem mentions_compileFeatureArg {t : Term} {i : Instruction}
    (compiled : compileFeatureArg regs bound t = .ok i) : i.mentions = [regs.mention t] := by
  unfold compileFeatureArg at compiled
  split at compiled
  · cases compiled
    rfl
  · split at compiled <;> cases compiled
    rfl

theorem mentions_compileWeight {functor : String} {weight : FeatureWeight} {code : List Instruction}
    (compiled : compileWeight regs bound functor weight = .ok code) :
    mentions code = weight.mentions regs functor := by
  unfold compileWeight at compiled
  split at compiled
  · cases compiled
    rfl
  · cases compiled
    rfl
  · split at compiled <;> cases compiled
    rfl

theorem mentions_compileFeature {f : FeatureTemplate} {code : List Instruction}
    (compiled : compileFeature regs bound f = .ok code) :
    mentions code =
      .functor f.goal.functor :: (f.goal.args.map regs.mention ++ f.weight.mentions regs f.goal.functor) := by
  obtain ⟨args, compiledArgs, others⟩ := Except.bind_eq_ok.1 compiled
  obtain ⟨weight, compiledWeight, equal⟩ := Except.bind_eq_ok.1 others
  cases equal
  have inArgs : mentions args = f.goal.args.map regs.mention := by
    rw [List.map_eq_flatMap]
    exact (flatMap_eq_of_forall₂ (Except.forall₂_of_mapM compiledArgs) fun _ _ made =>
      (mentions_compileFeatureArg made).symm).symm
  simp [Instruction.mentions, inArgs, mentions_compileWeight compiledWeight]

/-- A feature that ranges over no goals mentions what its code does. -/
theorem mentions_plain {f : FeatureTemplate} {code : List Instruction} (plain : f.findall.isEmpty = true)
    (compiled : compileFeature regs bound f = .ok code) : mentions code = f.mentions regs := by
  rw [mentions_compileFeature compiled, FeatureTemplate.mentions, List.isEmpty_iff.1 plain]
  rfl

theorem mentions_compileFindall {f : FeatureTemplate} {code : List Instruction}
    (compiled : compileFindall regs bound f = .ok code) : mentions code = f.mentions regs := by
  obtain ⟨feature, compiledFeature, equal⟩ := Except.bind_eq_ok.1 compiled
  cases equal
  simp [Instruction.mentions, mentions_compileFeature compiledFeature, FeatureTemplate.mentions]

theorem mentions_placeFeatures (pieces : List (Option (List Instruction))) (addresses : List Nat) :
    mentions (placeFeatures pieces addresses) = pieces.flatMap fun piece => mentions (piece.getD []) := by
  induction pieces generalizing addresses with
  | nil => rfl
  | cons piece rest ih =>
    cases piece with
    | some code => simp [placeFeatures, ih]
    | none => cases addresses <;> simp [placeFeatures, Instruction.mentions, ih]

/-! ### Clauses -/

/-- What the code of a rule mentions that is the `number`-th of its predicate. -/
def Rule.mentions (r : Rule) (number : Nat) : List Mention :=
  .comment r.text :: r.lhs.args.map (Registers.ofRule r).mention ++
    (if r.features.isEmpty then ProofWalk.mentions (clauseFeature r.lhs number) else []) ++
    r.features.flatMap (FeatureTemplate.mentions (.ofRule r)) ++
    r.rhs.flatMap (Goal.mentions (.ofRule r))

/-- The code of the features mentions what they do. -/
theorem Rule.Pieces.mem_mentions_features {r : Rule} {start number : Nat} {code : List Instruction}
    {plain : List (Option (List Instruction))} {ranging : List (List Instruction)} {behind : Nat}
    (pieces : r.Pieces start number code plain ranging behind) {m : Mention} :
    m ∈ r.features.flatMap (FeatureTemplate.mentions (.ofRule r)) ↔
      m ∈ plain.flatMap (fun piece => ProofWalk.mentions (piece.getD [])) ∨
        m ∈ ProofWalk.mentions ranging.flatten := by
  have inPlain : plain.flatMap (fun piece => ProofWalk.mentions (piece.getD [])) =
      r.features.flatMap fun f => if f.findall.isEmpty then f.mentions (.ofRule r) else [] := by
    refine (flatMap_eq_of_forall₂ (Except.forall₂_of_mapM pieces.plain) fun f piece made => ?_).symm
    unfold plainCode at made
    split at made
    · rename_i isPlain
      obtain ⟨code, compiledFeature, rfl⟩ := Except.map_eq_ok.1 made
      rw [if_pos isPlain]
      exact (mentions_plain isPlain compiledFeature).symm
    · rename_i isRanging
      cases made
      rw [if_neg isRanging]
      rfl
  have inRanging : ProofWalk.mentions ranging.flatten =
      (r.features.filter fun f => !f.findall.isEmpty).flatMap (FeatureTemplate.mentions (.ofRule r)) := by
    rw [mentions_flatten]
    exact (flatMap_eq_of_forall₂ (Except.forall₂_of_mapM pieces.ranging) fun f piece made =>
      (mentions_compileFindall made).symm).symm
  rw [inPlain, inRanging]
  simp only [List.mem_flatMap, List.mem_filter]
  -- a feature ranges over goals, or it does not
  constructor
  · rintro ⟨f, isFeature, inFeature⟩
    by_cases isPlain : f.findall.isEmpty = true
    · exact .inl ⟨f, isFeature, by rwa [if_pos isPlain]⟩
    · exact .inr ⟨f, ⟨isFeature, by simpa using isPlain⟩, inFeature⟩
  · rintro (⟨f, isFeature, inFeature⟩ | ⟨f, ⟨isFeature, -⟩, inFeature⟩)
    · split at inFeature
      · exact ⟨f, isFeature, inFeature⟩
      · cases inFeature
    · exact ⟨f, isFeature, inFeature⟩

/-- The code of a clause mentions what its rule does. -/
theorem Rule.mem_mentions_compile {r : Rule} {start number : Nat} {code : List Instruction}
    (compiled : r.compile start number = .ok code) {m : Mention} :
    m ∈ ProofWalk.mentions code ↔ m ∈ r.mentions number := by
  obtain ⟨plain, ranging, behind, pieces⟩ := pieces_of_compile compiled
  have inOpening : m ∈ ProofWalk.mentions (r.opening number) ↔
      m = .comment r.text ∨ m ∈ r.lhs.args.map (Registers.ofRule r).mention ∨
        m ∈ if r.features.isEmpty then ProofWalk.mentions (clauseFeature r.lhs number) else [] := by
    unfold opening headCode
    split <;> simp [Instruction.mentions]
  have inClosing : m ∈ ProofWalk.mentions r.closing ↔ m ∈ r.rhs.flatMap (Goal.mentions (.ofRule r)) := by
    simp [closing, Instruction.mentions]
  rw [pieces.code, front]
  simp only [Rule.mentions, mentions_append, mentions_placeFeatures, List.mem_append, List.mem_cons,
    inOpening, inClosing, pieces.mem_mentions_features]
  tauto

/-- Where a rule has what it mentions from. -/
inductive Rule.Mentions (r : Rule) : Mention → Prop
  | text : Mentions r (.comment r.text)
  | argument {g : Goal} {t : Term} (isGoal : g ∈ r.goals) (isArgument : t ∈ g.args) :
      Mentions r ((Registers.ofRule r).mention t)
  | label {g : Goal} (isGoal : g ∈ r.goals) : Mentions r (.label g.label)
  | functor {g : Goal} (isGoal : g ∈ r.goals) : Mentions r (.functor g.functor)
  | reserved : Mentions r (.functor "id")
  | name {g : Goal} (isGoal : g ∈ r.goals) : Mentions r (.constant g.functor)
  | number (n : Nat) : Mentions r (.constant (String.ofList (Decimal.natDigits n)))
  | weight (w : Float) : Mentions r (.constant (Decimal.plain w))
  | weightOf (v : Variable) : Mentions r (.register ((Registers.ofRule r).operand v))

namespace Rule

variable {r : Rule} {number : Nat} {m : Mention}

theorem mentions_of_mem_goal {g : Goal} (isGoal : g ∈ r.goals)
    (member : m ∈ g.mentions (.ofRule r)) : r.Mentions m := by
  rcases List.mem_append.1 member with inArgs | isLabel
  · obtain ⟨t, isArgument, rfl⟩ := List.mem_map.1 inArgs
    exact .argument isGoal isArgument
  · rw [List.mem_singleton.1 isLabel]
    exact .label isGoal

theorem mentions_of_mem_feature {f : FeatureTemplate} (isFeature : f ∈ r.features)
    (member : m ∈ f.mentions (.ofRule r)) : r.Mentions m := by
  have isGoal : f.goal ∈ r.goals := mem_goals_of_feature isFeature (List.mem_cons_self ..)
  rcases List.mem_append.1 member with ranging | plain
  · obtain ⟨g, inFindall, inGoal⟩ := List.mem_flatMap.1 ranging
    exact mentions_of_mem_goal (mem_goals_of_feature isFeature (List.mem_cons_of_mem _ inFindall)) inGoal
  rcases List.mem_cons.1 plain with rfl | plain
  · exact .functor isGoal
  rcases List.mem_append.1 plain with inArgs | inWeight
  · obtain ⟨t, isArgument, rfl⟩ := List.mem_map.1 inArgs
    exact .argument isGoal isArgument
  · cases isWeight : f.weight with
    | unit =>
      rw [isWeight] at inWeight
      cases inWeight
    | fixed w =>
      rw [isWeight] at inWeight
      rcases List.mem_pair.1 inWeight with rfl | rfl
      · exact .weight w
      · exact .name isGoal
    | bound v =>
      rw [isWeight] at inWeight
      rcases List.mem_pair.1 inWeight with rfl | rfl
      · exact .weightOf v
      · exact .name isGoal

/-- What a rule mentions it has from its goals, or the compiler has made it up. -/
theorem mentions_of_mem (member : m ∈ r.mentions number) : r.Mentions m := by
  simp only [Rule.mentions, List.mem_append, List.mem_cons] at member
  rcases member with (((rfl | inHead) | inName) | inFeatures) | inGoals
  · exact .text
  · obtain ⟨t, isArgument, rfl⟩ := List.mem_map.1 inHead
    exact .argument r.lhs_mem_goals isArgument
  · split at inName
    · simp only [clauseFeature, mentions_cons, mentions_nil, Instruction.mentions, List.mem_append,
        List.mem_singleton, List.not_mem_nil, or_false] at inName
      rcases inName with rfl | rfl | rfl | rfl
      · exact .reserved
      · exact .name r.lhs_mem_goals
      · exact .number _
      · exact .number _
    · cases inName
  · obtain ⟨f, isFeature, inFeature⟩ := List.mem_flatMap.1 inFeatures
    exact mentions_of_mem_feature isFeature inFeature
  · obtain ⟨g, isGoal, inGoal⟩ := List.mem_flatMap.1 inGoals
    exact mentions_of_mem_goal (mem_goals_of_mem_rhs isGoal) inGoal

theorem mem_mentions_of_feature {f : FeatureTemplate} (isFeature : f ∈ r.features)
    (member : m ∈ f.mentions (.ofRule r)) : m ∈ r.mentions number := by
  simp only [Rule.mentions, List.mem_append, List.mem_flatMap]
  exact .inl (.inr ⟨f, isFeature, member⟩)

/-- No argument of a rule goes unmentioned. -/
theorem mention_mem {g : Goal} (isGoal : g ∈ r.goals) {t : Term} (isArgument : t ∈ g.args) :
    (Registers.ofRule r).mention t ∈ r.mentions number := by
  have inArgs := List.mem_map_of_mem (f := (Registers.ofRule r).mention) isArgument
  rcases List.mem_cons.1 isGoal with rfl | isGoal
  · simp only [Rule.mentions, List.mem_append, List.mem_cons]
    exact .inl (.inl (.inl (.inr inArgs)))
  rcases List.mem_append.1 isGoal with inBody | inFeatures
  · simp only [Rule.mentions, List.mem_append, List.mem_flatMap]
    exact .inr ⟨g, inBody, List.mem_append_left _ inArgs⟩
  obtain ⟨f, isFeature, inFeature⟩ := List.mem_flatMap.1 inFeatures
  refine mem_mentions_of_feature isFeature ?_
  rcases List.mem_cons.1 inFeature with rfl | inFindall
  · exact List.mem_append_right _ (List.mem_cons_of_mem _ (List.mem_append_left _ inArgs))
  · exact List.mem_append_left _ (List.mem_flatMap.2 ⟨g, inFindall, List.mem_append_left _ inArgs⟩)

end Rule

/-! ### Programs -/

/-- A compiled program is made of the code of its clauses. -/
theorem pieces_of_compileOnto {p p' : Program} {labels : List String} {rules : List Rule}
    (compiled : compileOnto p labels rules = .ok p') :
    ∃ pieces, p'.code.toList = p.code.toList ++ pieces.flatten ∧
      List.Forall₂ (fun r piece => ∃ start number, r.compile start number = .ok piece ∧
        start + piece.length ≤ p'.size) rules pieces := by
  induction rules generalizing p labels with
  | nil =>
    cases compiled
    exact ⟨[], by simp, .nil⟩
  | cons r rest ih =>
    obtain ⟨piece, made, behind⟩ := Except.bind_eq_ok.1 compiled
    obtain ⟨pieces, code, others⟩ := ih behind
    have whole : p'.code.toList = p.code.toList ++ (piece :: pieces).flatten := by
      rw [code, Program.append, Array.toList_append, List.flatten_cons, List.append_assoc]
    refine ⟨piece :: pieces, whole, .cons ⟨p.size, _, made, ?_⟩ others⟩
    have size := congrArg List.length whole
    rw [List.flatten_cons, List.length_append, List.length_append, Array.length_toList,
      Array.length_toList] at size
    change p.code.size + piece.length ≤ p'.code.size
    omega

theorem pieces_of_compileRules {rules : List Rule} {p : Program} (compiled : compileRules rules = .ok p) :
    ∃ pieces, p.code.toList = pieces.flatten ∧
      List.Forall₂ (fun r piece => ∃ start number, r.compile start number = .ok piece ∧
        start + piece.length ≤ p.size) rules pieces :=
  pieces_of_compileOnto compiled

/-! ### Words in compiled code -/

/-- The constants of an instruction stand on one line, and a feature begins with a word. -/
def Instruction.Tidy : Instruction → Prop
  | .pushConstant c | .unifyConstant c _ | .featureConstant c => Text.OnLine c
  | .beginFeature functor _ => Text.IsWord functor
  | _ => True

/-- All instructions of some code are tidy. -/
def TidyCode (code : List Instruction) : Prop := ∀ i ∈ code, i.Tidy

/-- A constant that is mentioned stands on one line, and a functor is a word. -/
def Mention.Tidy : Mention → Prop
  | .constant c => Text.OnLine c
  | .functor f => Text.IsWord f
  | _ => True

theorem Instruction.tidy_iff (i : Instruction) : i.Tidy ↔ ∀ m ∈ i.mentions, m.Tidy := by
  cases i <;> simp [Tidy, mentions, Mention.Tidy]

theorem tidyCode_iff {code : List Instruction} : TidyCode code ↔ ∀ m ∈ mentions code, m.Tidy := by
  simp only [TidyCode, Instruction.tidy_iff, mentions, List.mem_flatMap]
  constructor
  · rintro tidy m ⟨i, isIn, member⟩
    exact tidy i isIn m member
  · exact fun tidy i isIn m member => tidy m ⟨i, isIn, member⟩

theorem onLine_ofList_natDigits (n : Nat) : Text.OnLine (String.ofList (Decimal.natDigits n)) := by
  rw [Text.OnLine, String.toList_ofList]
  exact Text.not_mem_natDigits (by decide) n

theorem Term.Tidy.mention {t : Term} (tidy : t.Tidy) (regs : Registers) : (regs.mention t).Tidy := by
  cases t with
  | constant c => exact tidy
  | var v => trivial

/-- What a tidy rule mentions is tidy. -/
theorem Rule.Mentions.tidy {r : Rule} {m : Mention} (mentions : r.Mentions m) (tidy : r.Tidy) : m.Tidy := by
  cases mentions with
  | text => trivial
  | argument isGoal isArgument => exact ((tidy _ isGoal).args _ isArgument).mention _
  | label isGoal => trivial
  | functor isGoal => exact (tidy _ isGoal).functor
  | reserved => exact ⟨by simp, by simp [Text.isBlank]⟩
  | name isGoal => exact (tidy _ isGoal).functor.onLine
  | number n => exact onLine_ofList_natDigits n
  | weight w => exact (Decimal.isWord_plain w).onLine
  | weightOf v => trivial

/-- The code of a tidy clause is tidy. -/
theorem Rule.tidy_compile {r : Rule} (tidy : r.Tidy) {start number : Nat} {code : List Instruction}
    (compiled : r.compile start number = .ok code) : TidyCode code :=
  tidyCode_iff.2 fun _ member =>
    (Rule.mentions_of_mem ((Rule.mem_mentions_compile compiled).1 member)).tidy tidy

/-- The code of tidy rules is tidy. -/
theorem tidy_of_compileRules {rules : List Rule} {p : Program} (tidy : ∀ r ∈ rules, r.Tidy)
    (compiled : compileRules rules = .ok p) : TidyCode p.code.toList := by
  obtain ⟨pieces, code, made⟩ := pieces_of_compileRules compiled
  intro i member
  rw [code] at member
  obtain ⟨piece, isPiece, inPiece⟩ := List.mem_flatten.1 member
  obtain ⟨r, isRule, start, number, compiledRule, -⟩ := exists_of_forall₂ made isPiece
  exact Rule.tidy_compile (tidy r isRule) compiledRule i inPiece

/-- The code of a tidy query is tidy. -/
theorem Query.tidy_compile {q : Query} (tidy : q.Tidy) : TidyCode q.compile := by
  refine tidyCode_iff.2 fun m member => ?_
  simp only [Query.compile, mentions_cons, mentions_append, mentions_compileGoals, mentions_nil,
    Instruction.mentions, List.nil_append, List.append_nil] at member
  obtain ⟨g, isGoal, inGoal⟩ := List.mem_flatMap.1 member
  rcases List.mem_append.1 inGoal with inArgs | isLabel
  · obtain ⟨t, isArgument, rfl⟩ := List.mem_map.1 inArgs
    exact ((tidy g isGoal).args t isArgument).mention _
  · rw [List.mem_singleton.1 isLabel]
    trivial

end ProofWalk
