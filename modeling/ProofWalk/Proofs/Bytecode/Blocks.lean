import ProofWalk.Proofs.Bytecode.Layout
import ProofWalk.Proofs.Machine.Resuming

/-!
# Blocks of code

The code of a clause is a block of its own. It ends in a return, so that no line of code runs on into the
next clause, and its search instructions name addresses behind the return that still belong to it.

## Main definitions

* `targets` — the addresses that search instructions name
* `EndsInReturn` — the last instruction is a return
* `Program.Block`, `Program.Blocks` — code that is left by calls and returns only
* `Program.Owns` — the clause that an address belongs to

## Main results

* `Rule.block_of_compile` — the code of a clause ends in a return, and its searches begin in it
* `Program.blocks_of_compileRules` — every clause of a compiled program is a block
-/

namespace ProofWalk

/-- The address that a search instruction names. -/
def Instruction.target? : Instruction → Option Nat
  | .findall address => some address
  | _ => none

/-- The addresses that search instructions name. -/
def targets (code : List Instruction) : List Nat := code.filterMap Instruction.target?

/-- The last instruction is a return. -/
def EndsInReturn (code : List Instruction) : Prop := ∃ front, code = front ++ [.ret]

@[simp] theorem targets_nil : targets [] = [] := rfl

@[simp] theorem targets_cons (i : Instruction) (code : List Instruction) :
    targets (i :: code) = i.target?.toList ++ targets code := by
  cases h : i.target? <;> simp [targets, h]

@[simp] theorem targets_append (front back : List Instruction) :
    targets (front ++ back) = targets front ++ targets back := List.filterMap_append

theorem targets_eq_nil {code : List Instruction} : targets code = [] ↔ ∀ i ∈ code, i.target? = none :=
  List.filterMap_eq_nil_iff

variable {regs : Registers} {seen bound : List Variable}

/-! ### Searches -/

@[simp] theorem targets_compileHead (argument : Int) (terms : List Term) :
    targets (compileHead regs seen argument terms).1 = [] := by
  induction terms generalizing seen argument with
  | nil => rfl
  | cons t rest ih =>
    cases t with
    | constant c => simp [compileHead, Instruction.target?, ih]
    | var v => by_cases met : v ∈ seen <;> simp [compileHead, met, Instruction.target?, ih]

@[simp] theorem targets_compileArgs (terms : List Term) :
    targets (compileArgs regs seen terms).1 = [] := by
  induction terms generalizing seen with
  | nil => rfl
  | cons t rest ih =>
    cases t with
    | constant c => simp [compileArgs, Instruction.target?, ih]
    | var v => by_cases met : v ∈ seen <;> simp [compileArgs, met, Instruction.target?, ih]

@[simp] theorem targets_compileGoals (goals : List Goal) :
    targets (compileGoals regs seen goals).1 = [] := by
  induction goals generalizing seen with
  | nil => rfl
  | cons g rest ih => simp [compileGoals, Instruction.target?, ih]

@[simp] theorem targets_clauseFeature (lhs : Goal) (number : Nat) :
    targets (clauseFeature lhs number) = [] := rfl

theorem targets_compileFeature {f : FeatureTemplate} {code : List Instruction}
    (compiled : compileFeature regs bound f = .ok code) : targets code = [] := by
  obtain ⟨args, compiledArgs, others⟩ := Except.bind_eq_ok.1 compiled
  obtain ⟨weight, compiledWeight, equal⟩ := Except.bind_eq_ok.1 others
  cases equal
  have noneInArgs : targets args = [] := by
    refine targets_eq_nil.2 fun i member => ?_
    obtain ⟨t, -, result⟩ := Except.exists_of_mapM compiledArgs member
    unfold compileFeatureArg at result
    split at result
    · cases result
      rfl
    · split at result <;> cases result
      rfl
  have noneInWeight : targets weight = [] := by
    unfold compileWeight at compiledWeight
    split at compiledWeight
    · cases compiledWeight
      rfl
    · cases compiledWeight
      rfl
    · split at compiledWeight <;> cases compiledWeight
      rfl
  simp [Instruction.target?, noneInArgs, noneInWeight]

theorem targets_compileFindall {f : FeatureTemplate} {code : List Instruction}
    (compiled : compileFindall regs bound f = .ok code) : targets code = [] := by
  obtain ⟨feature, compiledFeature, equal⟩ := Except.bind_eq_ok.1 compiled
  cases equal
  simp [Instruction.target?, targets_compileFeature compiledFeature]

/-- The search instructions among the features name the addresses that these are given. -/
theorem targets_placeFeatures {pieces : List (Option (List Instruction))}
    (straight : ∀ code, some code ∈ pieces → targets code = []) (addresses : List Nat) :
    targets (placeFeatures pieces addresses) ⊆ addresses := by
  induction pieces generalizing addresses with
  | nil => exact List.nil_subset _
  | cons piece rest ih =>
    have others := ih fun code member => straight code (by simp [member])
    cases piece with
    | some code =>
      rw [placeFeatures, targets_append, straight code (by simp), List.nil_append]
      exact others addresses
    | none =>
      cases addresses with
      | nil => exact others []
      | cons address addresses => exact List.cons_subset_cons address (others addresses)

/-- A search instruction is found by the number of those before it. -/
theorem eq_of_targets {front front' back back' : List Instruction} {target target' : Nat}
    (same : front ++ .findall target :: back = front' ++ .findall target' :: back')
    (count : (targets front).length = (targets front').length) : front = front' ∧ target = target' := by
  induction front generalizing front' with
  | nil =>
    cases front' with
    | nil =>
      cases same
      exact ⟨rfl, rfl⟩
    | cons i front' =>
      cases same
      simp [Instruction.target?] at count
  | cons i front ih =>
    cases front' with
    | nil =>
      cases same
      simp [Instruction.target?] at count
    | cons i' front' =>
      obtain ⟨rfl, behind⟩ := List.cons.inj same
      rw [targets_cons, targets_cons, List.length_append, List.length_append] at count
      obtain ⟨rfl, equal⟩ := ih behind (Nat.add_left_cancel count)
      exact ⟨rfl, equal⟩

/-- The code of a feature at its place holds no search instruction of its own. -/
theorem targets_of_mem_plainCode {features : List FeatureTemplate} {plain : List (Option (List Instruction))}
    (compiled : features.mapM (plainCode regs bound) = .ok plain) {piece : List Instruction}
    (member : some piece ∈ plain) : targets piece = [] := by
  obtain ⟨f, -, made⟩ := Except.exists_of_mapM compiled member
  unfold plainCode at made
  split at made
  · obtain ⟨_, compiledFeature, same⟩ := Except.map_eq_ok.1 made
    cases same
    exact targets_compileFeature compiledFeature
  · cases made

/-- Where there is an address for each search, the search instructions name just these. -/
theorem targets_placeFeatures_eq {pieces : List (Option (List Instruction))} {addresses : List Nat}
    (straight : ∀ code, some code ∈ pieces → targets code = [])
    (enough : addresses.length = pieces.countP (·.isNone)) :
    targets (placeFeatures pieces addresses) = addresses := by
  induction pieces generalizing addresses with
  | nil => exact (List.length_eq_zero_iff.1 enough).symm
  | cons piece rest ih =>
    have others := fun {addresses} => @ih addresses fun code member => straight code (by simp [member])
    cases piece with
    | some code =>
      rw [placeFeatures, targets_append, straight code (by simp), List.nil_append]
      exact others (by simpa using enough)
    | none =>
      cases addresses with
      | nil => simp at enough
      | cons address addresses =>
        rw [placeFeatures, targets_cons, others (by simpa using enough)]
        rfl

/-- The place of a feature that ranges over goals among the features of its clause. -/
theorem placeFeatures_split {code : Code} {before after : List FeatureTemplate} {f : FeatureTemplate}
    {plain : List (Option (List Instruction))} {addresses : List Nat} (ranges : f.findall ≠ [])
    (compiled : (before ++ f :: after).mapM (plainCode regs bound) = .ok plain)
    (ranging : RangingAt code regs bound (before ++ f :: after) addresses) :
    ∃ plain' addresses' target back,
      placeFeatures plain addresses = placeFeatures plain' addresses' ++ .findall target :: back ∧
      before.mapM (plainCode regs bound) = .ok plain' ∧ RangingAt code regs bound before addresses' ∧
      (targets (placeFeatures plain' addresses')).length =
        (before.filter fun f => !f.findall.isEmpty).length ∧
      ∃ instructions, compileFindall regs bound f = .ok instructions ∧ code.HasAt target instructions := by
  have isRanging : ¬f.findall.isEmpty := by simpa using ranges
  -- the pieces of the features before it, its own, and those of the features after it
  rw [List.mapM_append, List.mapM_cons] at compiled
  obtain ⟨plain', compiledBefore, others⟩ := Except.bind_eq_ok.1 compiled
  obtain ⟨_, rest, equal⟩ := Except.bind_eq_ok.1 others
  obtain ⟨first, here, rest⟩ := Except.bind_eq_ok.1 rest
  obtain ⟨behind, -, rest⟩ := Except.bind_eq_ok.1 rest
  rw [plainCode, if_neg isRanging] at here
  cases here
  cases rest
  cases equal
  rw [RangingAt, List.filter_append, List.filter_cons_of_pos (by simpa using ranges)] at ranging
  have rangingBefore := (List.forall₂_take_append _ _ _ ranging.flip).flip
  have rangingBehind := (List.forall₂_drop_append _ _ _ ranging.flip).flip
  rw [← List.take_append_drop (before.filter fun f => !f.findall.isEmpty).length addresses]
  generalize addresses.take _ = addresses' at rangingBefore ⊢
  generalize addresses.drop _ = others at rangingBehind ⊢
  cases rangingBehind with
  | @cons _ target _ later found _ =>
    have enough : addresses'.length = plain'.countP (·.isNone) := by
      rw [countP_isNone_plainCode compiledBefore, rangingBefore.length_eq]
    have straight : ∀ piece, some piece ∈ plain' → targets piece = [] :=
      fun piece member => targets_of_mem_plainCode compiledBefore member
    refine ⟨plain', addresses', target, _, placeFeatures_append enough _ _, compiledBefore, rangingBefore, ?_,
      found⟩
    rw [targets_placeFeatures_eq straight enough, rangingBefore.length_eq]

/-! ### Clauses -/

theorem EndsInReturn.append (front : List Instruction) {code : List Instruction}
    (ends : EndsInReturn code) : EndsInReturn (front ++ code) := by
  obtain ⟨rest, rfl⟩ := ends
  exact ⟨front ++ rest, (List.append_assoc ..).symm⟩

/-- Behind code that ends in a return there may be more such code. -/
theorem EndsInReturn.append_flatten {code : List Instruction} {pieces : List (List Instruction)}
    (ends : EndsInReturn code) (others : ∀ piece ∈ pieces, EndsInReturn piece) :
    EndsInReturn (code ++ pieces.flatten) := by
  induction pieces generalizing code with
  | nil => rwa [List.flatten_nil, List.append_nil]
  | cons piece rest ih =>
    rw [List.flatten_cons, ← List.append_assoc]
    exact ih ((others piece (by simp)).append code) fun other member => others other (by simp [member])

theorem EndsInReturn.length_pos {code : List Instruction} (ends : EndsInReturn code) :
    0 < code.length := by
  obtain ⟨front, rfl⟩ := ends
  simp

theorem endsInReturn_compileFindall {f : FeatureTemplate} {code : List Instruction}
    (compiled : compileFindall regs bound f = .ok code) : EndsInReturn code := by
  obtain ⟨feature, -, equal⟩ := Except.bind_eq_ok.1 compiled
  cases equal
  exact EndsInReturn.append _ ⟨.clearFeatures :: feature, rfl⟩

/-- Pieces begin within the code that they make up. -/
theorem mem_startAddresses {start address : Nat} {pieces : List (List Instruction)}
    (nonempty : ∀ piece ∈ pieces, 0 < piece.length) (member : address ∈ startAddresses start pieces) :
    start ≤ address ∧ address < start + pieces.flatten.length := by
  induction pieces generalizing start with
  | nil => cases member
  | cons piece rest ih =>
    have positive := nonempty piece (by simp)
    rw [List.flatten_cons, List.length_append]
    rcases List.mem_cons.1 member with rfl | behind
    · omega
    · have inside := ih (fun other member => nonempty other (by simp [member])) behind
      omega

theorem Rule.targets_opening (r : Rule) (number : Nat) : targets (r.opening number) = [] := by
  unfold opening headCode
  split <;> simp [Instruction.target?]

theorem Rule.targets_closing (r : Rule) : targets r.closing = [] := by
  simp [closing, Instruction.target?]

/-- The code of a clause ends in a return, and its searches begin in it. -/
theorem Rule.block_of_compile {rule : Rule} {start number : Nat} {code : List Instruction}
    (compiled : rule.compile start number = .ok code) :
    EndsInReturn code ∧ ∀ address ∈ targets code, start ≤ address ∧ address < start + code.length := by
  obtain ⟨plain, ranging, behind, pieces⟩ := Rule.pieces_of_compile compiled
  have inReturn : ∀ piece ∈ ranging, EndsInReturn piece := fun piece isPiece => by
    obtain ⟨f, -, compiledFindall⟩ := pieces.exists_findall isPiece
    exact endsInReturn_compileFindall compiledFindall
  constructor
  · rw [pieces.code]
    exact (EndsInReturn.append _ ⟨_, rfl⟩).append_flatten inReturn
  · intro address member
    have nonePlain : ∀ piece, some piece ∈ plain → targets piece = [] := fun piece isPlain =>
      targets_of_mem_plainCode pieces.plain isPlain
    have noneRanging : targets ranging.flatten = [] := by
      refine targets_eq_nil.2 fun i inside => ?_
      obtain ⟨piece, isPiece, inPiece⟩ := List.mem_flatten.1 inside
      obtain ⟨f, -, compiledFindall⟩ := pieces.exists_findall isPiece
      exact targets_eq_nil.1 (targets_compileFindall compiledFindall) i inPiece
    -- only the features name addresses, and these are where the pieces behind the return begin
    rw [pieces.code] at member ⊢
    simp only [Rule.front, targets_append, rule.targets_opening, rule.targets_closing, noneRanging,
      List.nil_append, List.append_nil] at member
    have inside := mem_startAddresses (fun piece isPiece => (inReturn piece isPiece).length_pos)
      (targets_placeFeatures nonePlain _ member)
    have behind := pieces.behind
    rw [List.length_append]
    omega

/-! ### Programs -/

namespace Program

/-- Code that is left by calls and returns only: behind every other instruction there is a next one, and
searches begin in it. -/
structure Block (p : Program) (start stop : Nat) : Prop where
  nonempty : start < stop
  inside : stop ≤ p.size
  next : ∀ pc, start ≤ pc → pc < stop → p.code[pc]? = some .ret ∨ pc + 1 < stop
  search : ∀ pc address, start ≤ pc → pc < stop → p.code[pc]? = some (.findall address) →
    start ≤ address ∧ address < stop

/-- Every entry begins a block, and no other entry lies in it. -/
def Blocks (p : Program) : Prop :=
  ∀ entry ∈ p.entries, ∃ stop, p.Block entry.2 stop ∧ ∀ other ∈ p.entries, entry.2 < other.2 → stop ≤ other.2

/-- An address belongs to the clause whose entry is the last one that does not lie behind it. -/
def Owns (p : Program) (entry pc : Nat) : Prop :=
  entry ≤ pc ∧ pc < p.size ∧ ∀ other ∈ p.entries, entry < other.2 → pc < other.2

variable {p p' : Program} {entry other pc start stop : Nat}

/-- An address belongs to one clause only. -/
theorem Owns.unique {label label' : String} (isEntry : (label, entry) ∈ p.entries)
    (isOther : (label', other) ∈ p.entries) (owns : p.Owns entry pc) (owns' : p.Owns other pc) :
    entry = other := by
  rcases Nat.lt_trichotomy entry other with before | same | behind
  · have := owns.2.2 _ isOther before
    have := owns'.1
    omega
  · exact same
  · have := owns'.2.2 _ isEntry behind
    have := owns.1
    omega

theorem mem_entries_of_mem_addresses {label : String} (member : entry ∈ p.addresses label) :
    (label, entry) ∈ p.entries := by
  obtain ⟨⟨label', address⟩, isEntry, found⟩ := List.mem_filterMap.1 member
  simp only [Option.ite_none_right_eq_some, Option.some.injEq] at found
  obtain ⟨rfl, rfl⟩ := found
  exact isEntry

/-- Code that is added leaves blocks as they are. -/
theorem Block.append (block : p.Block start stop) (labels : List String) (code : List Instruction) :
    (p.append labels code).Block start stop := by
  have kept (pc : Nat) (inside : pc < stop) : (p.append labels code).code[pc]? = p.code[pc]? :=
    Array.getElem?_append_left (Nat.lt_of_lt_of_le inside block.inside)
  refine ⟨block.nonempty, ?_, fun pc above below => ?_, fun pc address above below found => ?_⟩
  · refine Nat.le_trans block.inside ?_
    simp [size, Program.append]
  · rw [kept pc below]
    exact block.next pc above below
  · rw [kept pc below] at found
    exact block.search pc address above below found

/-- The code of a clause that is added is a block. -/
theorem block_append {labels : List String} {code : List Instruction} (ends : EndsInReturn code)
    (searches : ∀ address ∈ targets code, p.size ≤ address ∧ address < p.size + code.length) :
    (p.append labels code).Block p.size (p.size + code.length) := by
  have found (k : Nat) : (p.append labels code).code[p.size + k]? = code[k]? := by
    change (p.code ++ code.toArray)[p.code.size + k]? = _
    rw [Array.getElem?_append_right (Nat.le_add_right ..)]
    simp
  refine ⟨Nat.lt_add_of_pos_right ends.length_pos, ?_, fun pc above below => ?_,
    fun pc address above below isSearch => ?_⟩
  · simp [size, Program.append]
  · obtain ⟨k, rfl⟩ := Nat.exists_eq_add_of_le above
    obtain ⟨front, rfl⟩ := ends
    rw [List.length_append, List.length_singleton] at below ⊢
    by_cases last : k = front.length
    · left
      rw [found, last]
      simp
    · right
      omega
  · obtain ⟨k, rfl⟩ := Nat.exists_eq_add_of_le above
    rw [found] at isSearch
    exact searches address (List.mem_filterMap.2 ⟨_, List.mem_of_getElem? isSearch, rfl⟩)

/-- Blocks stay blocks when a clause is added, whose code is one more. -/
theorem Blocks.append (blocks : p.Blocks) (label : String) {code : List Instruction}
    (ends : EndsInReturn code)
    (searches : ∀ address ∈ targets code, p.size ≤ address ∧ address < p.size + code.length) :
    (p.append [label] code).Blocks := by
  have entries : (p.append [label] code).entries = p.entries ++ [(label, p.size)] := rfl
  -- old entries lie before the new one
  have before : ∀ entry ∈ p.entries, entry.2 < p.size := fun entry member => by
    obtain ⟨stop, block, -⟩ := blocks entry member
    exact Nat.lt_of_lt_of_le block.nonempty block.inside
  unfold Blocks
  rw [entries]
  intro entry member
  rcases List.mem_append.1 member with old | new
  · obtain ⟨stop, block, apart⟩ := blocks entry old
    refine ⟨stop, block.append [label] code, fun other member behind => ?_⟩
    rcases List.mem_append.1 member with old' | new'
    · exact apart other old' behind
    · rw [List.mem_singleton.1 new']
      exact block.inside
  · obtain rfl := List.mem_singleton.1 new
    refine ⟨_, block_append ends searches, fun other member behind => ?_⟩
    rcases List.mem_append.1 member with old' | new'
    · exact absurd (before other old') (Nat.not_lt_of_gt behind)
    · rw [List.mem_singleton.1 new'] at behind
      exact absurd behind (Nat.lt_irrefl _)

theorem Blocks.compileOnto {rules : List Rule} {labels : List String} (blocks : p.Blocks)
    (compiled : ProofWalk.compileOnto p labels rules = .ok p') : p'.Blocks := by
  induction rules generalizing p labels with
  | nil =>
    cases compiled
    exact blocks
  | cons r rest ih =>
    obtain ⟨code, compiledRule, others⟩ := Except.bind_eq_ok.1 compiled
    obtain ⟨ends, searches⟩ := r.block_of_compile compiledRule
    exact ih (blocks.append r.lhs.label ends searches) others

/-- The clauses of a compiled program are blocks. -/
theorem blocks_of_compileRules {rules : List Rule} (compiled : compileRules rules = .ok p) : p.Blocks :=
  Blocks.compileOnto (fun entry member => by cases member) compiled

end Program

end ProofWalk
