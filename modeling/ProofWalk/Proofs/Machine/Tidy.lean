import ProofWalk.Proofs.Bytecode.Names
import ProofWalk.Proofs.Machine.Invariants
import ProofWalk.Proofs.Relation.Lines

/-!
# Legible features

The machine makes up no constants: those on the heap come from the code, from the query and from rows of
relations. If all of these stand on one line and features begin with words, then every feature that the
machine reports is legible. Every instruction keeps this, so all that the machine does keeps it, also where it
fails.

## Main definitions

* `State.Tidy`, `FeatureDraft.Tidy`, `Code.Tidy` — constants on one line, and legible features
* `tidyContract`, `Exec.Safe` — what tidy code keeps

## Main results

* `Exec.safe_step` — every instruction of tidy code leaves a tidy machine tidy
* `Code.Tidy.of_outlinks`, `Machine.tidy_of_startQuery` — steps are legible and lead to tidy states
-/

namespace ProofWalk

/-- All names in a map are legible. -/
def LegibleMap (m : FeatureMap) : Prop := ∀ f ∈ m, Legible f.1

/-- The constants on a heap stand on one line. -/
def State.Tidy (s : State) : Prop :=
  ∀ (i : Nat) (c : String), s.heap[i]? = some (.constant c) → Text.OnLine c

/-- A feature under construction begins with a word, and its arguments stand on one line. -/
structure FeatureDraft.Tidy (d : FeatureDraft) : Prop where
  functor : Text.IsWord d.functor
  args : ∀ a ∈ d.args, Text.OnLine a

/-- The code is tidy, and so are the answers of the relations. -/
structure Code.Tidy (code : Code) : Prop where
  program : TidyCode code.program.code.toList
  query : TidyCode code.query.toList
  relations : ∀ r ∈ code.relations, r.Tidy

/-! ### Features -/

theorem legibleMap_nil : LegibleMap [] := fun _ member => by cases member

/-- Changing the weight of a legible name keeps a map legible. -/
theorem LegibleMap.alter {m : FeatureMap} (legible : LegibleMap m) {name : String} (isName : Legible name)
    (f : Option Float → Float) : LegibleMap (m.alter name f) := by
  induction m with
  | nil =>
    intro feature member
    rw [List.mem_singleton.1 member]
    exact isName
  | cons first rest ih =>
    obtain ⟨here, others⟩ := List.forall_mem_cons.1 legible
    rw [FeatureMap.alter]
    split
    · exact List.forall_mem_cons.2 ⟨here, others⟩
    · split
      · exact List.forall_mem_cons.2 ⟨isName, legible⟩
      · exact List.forall_mem_cons.2 ⟨here, ih others⟩

theorem LegibleMap.merge {m added : FeatureMap} (legible : LegibleMap m) (areNames : LegibleMap added) :
    LegibleMap (m.merge added) := by
  unfold FeatureMap.merge
  induction added generalizing m with
  | nil => exact legible
  | cons first rest ih =>
    obtain ⟨isName, others⟩ := List.forall_mem_cons.1 areNames
    exact ih (legible.alter isName _) others

/-- The name of a tidy feature is legible. -/
theorem FeatureDraft.Tidy.legible_name {d : FeatureDraft} (tidy : d.Tidy) : Legible d.name := by
  unfold FeatureDraft.name
  split
  · exact tidy.functor.legible
  · refine legible_call tidy.functor ?_
    rw [Text.OnLine, String.toList_intercalate]
    intro member
    rcases Text.mem_intercalate member with comma | ⟨piece, isPiece, inside⟩
    · revert comma
      decide
    · obtain ⟨a, isArgument, rfl⟩ := List.mem_map.1 isPiece
      exact tidy.args a isArgument inside

/-! ### States -/

namespace State.Tidy

variable {s : State}

theorem initial : State.initial.Tidy := by
  intro i c constant
  cases constant

/-- A constant that a cell stands for stands on one line. -/
theorem constantAt (tidy : s.Tidy) {i : Nat} {c : String} (bound : s.constantAt i = some c) :
    Text.OnLine c := by
  unfold State.constantAt at bound
  split at bound
  · rename_i constant
    cases bound
    exact tidy _ _ constant
  · cases bound

theorem push (tidy : s.Tidy) {cell : Cell} (line : ∀ c, cell = .constant c → Text.OnLine c) :
    (s.push cell).Tidy := by
  intro i c constant
  change (s.heap.push cell)[i]? = _ at constant
  rw [Array.getElem?_push] at constant
  split at constant
  · exact line c (Option.some.inj constant)
  · exact tidy i c constant

theorem setCell (tidy : s.Tidy) (i : Nat) {cell : Cell} (line : ∀ c, cell = .constant c → Text.OnLine c) :
    (s.setCell i cell).Tidy := by
  intro j c constant
  change (s.heap.setIfInBounds i cell)[j]? = _ at constant
  rw [Array.getElem?_setIfInBounds] at constant
  split at constant
  · split at constant
    · exact line c (Option.some.inj constant)
    · cases constant
  · exact tidy j c constant

/-- The arguments of a call of a tidy state. -/
theorem callArgs (tidy : s.Tidy) : TidyArgs s.callArgs := by
  intro a member c bound
  unfold State.callArgs at member
  simp only at member
  split at member
  · cases member
  · obtain ⟨i, -, rfl⟩ := List.mem_map.1 member
    exact tidy.constantAt bound

end State.Tidy

/-! ### Instructions -/

/-- Tidy states, legible features and rows on one line; every error is permitted. -/
def tidyContract : Contract where
  state := State.Tidy
  features := LegibleMap
  draft := FeatureDraft.Tidy
  values vs := ∀ v ∈ vs, Text.OnLine v
  error _ := True

namespace Exec

/-- A computation leaves a tidy machine tidy, whatever it gives. -/
abbrev Safe {α : Type} (x : Exec α) : Prop := Neutral tidyContract x

theorem safe_of_holds {α : Type} {x : Exec α}
    (keeps : ∀ live, tidyContract.Holds live → tidyContract.Holds (x live).2) : Safe x :=
  fun live tidy => ⟨keeps live tidy, fun _ _ => trivial, fun _ _ => trivial⟩

theorem safe_pure {α : Type} (a : α) : Safe (pure a : Exec α) := .pure trivial

theorem safe_throw {α : Type} (e : Error) : Safe (throwThe Error e : Exec α) := .throw trivial

theorem safe_update {f : State → State} (keeps : ∀ s, s.Tidy → (f s).Tidy) : Safe (update f) :=
  neutral_update keeps

theorem safe_lift {α : Type} (f : State → Except Error α) : Safe (lift f) :=
  safe_of_holds fun _ tidy => tidy

theorem safe_tryUpdate {f : State → Except Error State} (keeps : ∀ s s', s.Tidy → f s = .ok s' → s'.Tidy) :
    Safe (tryUpdate f) := by
  refine safe_of_holds fun live tidy => ?_
  unfold tryUpdate
  split
  · rename_i s' done
    exact ⟨keeps _ _ tidy.state done, tidy.features, tidy.drafts⟩
  · exact tidy

theorem safe_setRegister (r : Int) (value : State → Nat) :
    Safe (tryUpdate fun s => s.setRegister r (value s)) := by
  refine safe_tryUpdate fun s s' tidy done => ?_
  unfold State.setRegister at done
  split at done
  · cases done
    exact tidy
  · cases done

theorem safe_draft (opcode : String) {f : FeatureDraft → FeatureDraft} (keeps : ∀ d, d.Tidy → (f d).Tidy) :
    Safe (draft opcode f) := by
  refine safe_of_holds fun live tidy => ?_
  unfold draft
  split
  · exact tidy
  · rename_i d rest drafts
    obtain ⟨first, others⟩ := List.forall_mem_cons.1 (drafts ▸ tidy.drafts)
    exact ⟨tidy.state, tidy.features, List.forall_mem_cons.2 ⟨keeps d first, others⟩⟩

theorem safe_addArgument (opcode : String) {c : String} (line : Text.OnLine c) :
    Safe (draft opcode fun d => { d with args := d.args ++ [c] }) := by
  refine safe_draft opcode fun d tidy => ⟨tidy.functor, ?_⟩
  exact List.forall_mem_append.2 ⟨tidy.args, List.forall_mem_singleton.2 line⟩

/-- A tidy machine with another tidy state. -/
theorem tidy_withState {live : Live} (tidy : tidyContract.Holds live) {s : State} (isTidy : s.Tidy) :
    tidyContract.Holds { live with state := s } := ⟨isTidy, tidy.features, tidy.drafts⟩

theorem safe_unifyConstant (i : Nat) {name : String} (line : Text.OnLine name) :
    Safe (unifyConstant i name) := by
  refine safe_of_holds fun live tidy => ?_
  unfold unifyConstant
  simp only
  split
  · exact tidy
  · refine tidy_withState tidy (tidy.state.setCell _ fun c same => ?_)
    cases same
    exact line
  · exact tidy

theorem safe_unifyCells (i j : Nat) : Safe (unifyCells i j) := by
  refine safe_of_holds fun live tidy => ?_
  unfold unifyCells
  simp only
  split
  · exact tidy
  · rename_i x _ isConstant _
    refine tidy_withState tidy (tidy.state.setCell _ fun c same => ?_)
    cases same
    exact tidy.state _ _ isConstant
  · rename_i _ y _ isConstant
    refine tidy_withState tidy (tidy.state.setCell _ fun c same => ?_)
    cases same
    exact tidy.state _ _ isConstant
  · split
    · exact tidy
    · exact tidy_withState tidy (tidy.state.setCell _ fun c same => by cases same)
  · exact tidy

theorem safe_pushResolved (i : Nat) : Safe (pushResolved i) := by
  refine safe_of_holds fun live tidy => ?_
  unfold pushResolved
  simp only
  split
  · rename_i x isConstant
    refine tidy_withState tidy (tidy.state.push fun c same => ?_)
    cases same
    exact tidy.state _ _ isConstant
  · exact tidy_withState tidy (tidy.state.push fun c same => by cases same)
  · exact tidy

theorem safe_weighDraft : Safe weighDraft := by
  unfold weighDraft
  refine keeps_state.bind fun s tidy => ?_
  by_cases low : s.heap.size < 2
  · simp only [if_pos low]
    exact .throw_bind trivial _
  simp only [if_neg low]
  split
  · exact safe_throw _
  · split
    · exact safe_throw _
    · exact safe_draft _ fun d isTidy => ⟨isTidy.functor, isTidy.args⟩

theorem safe_reportDraft : Safe reportDraft := by
  refine safe_of_holds fun live tidy => ?_
  unfold reportDraft
  split
  · exact tidy
  · rename_i d rest drafts
    obtain ⟨first, others⟩ := List.forall_mem_cons.1 (drafts ▸ tidy.drafts)
    exact ⟨tidy.state, tidy.features.alter first.legible_name _, others⟩

/-- Every instruction of tidy code leaves a tidy machine tidy. -/
theorem safe_step {findall : Nat → Exec Unit} (nested : ∀ address, Safe (findall address)) {i : Instruction}
    (isTidy : i.Tidy) : Safe (step findall i) := by
  have line {c c' : String} (isLine : Text.OnLine c) (same : Cell.constant c = .constant c') :
      Text.OnLine c' := by
    cases same
    exact isLine
  cases i with
  | comment | call | ret => exact safe_pure true
  | allocate n =>
    have grows : Safe (update fun s => { s with registers := s.registers ++ Array.replicate n none }) :=
      safe_update fun s tidy => tidy
    exact grows.andThen fun _ => safe_pure true
  | pushConstant c =>
    refine (safe_update fun s tidy => tidy.push fun c' same => ?_).andThen fun _ => safe_pure true
    exact line isTidy same
  | pushFree a =>
    refine (safe_update fun s tidy => tidy.push fun c same => by cases same).andThen fun _ => ?_
    exact (safe_setRegister a fun s => s.heap.size - 1).andThen fun _ => safe_pure true
  | pushBound a =>
    refine (safe_lift _).andThen fun i => ?_
    exact (safe_pushResolved i).andThen fun _ => safe_pure true
  | unifyConstant c argument => exact (safe_lift _).andThen fun i => safe_unifyConstant i isTidy
  | takeArgument a argument =>
    refine (safe_lift _).andThen fun i => ?_
    exact (safe_setRegister a fun _ => i).andThen fun _ => safe_pure true
  | unifyBound a argument =>
    refine (safe_lift _).andThen fun r => ?_
    exact (safe_lift _).andThen fun h => safe_unifyCells r h
  | clearFeatures =>
    exact fun live tidy => .of_ok rfl ⟨tidy.state, legibleMap_nil, tidy.drafts⟩ trivial
  | beginFeature functor arity =>
    refine fun live tidy => .of_ok rfl ⟨tidy.state, tidy.features, ?_⟩ trivial
    exact List.forall_mem_cons.2 ⟨⟨isTidy, fun a member => by cases member⟩, tidy.drafts⟩
  | featureConstant c =>
    exact (safe_addArgument _ isTidy).andThen fun _ => safe_pure true
  | featureBound a =>
    refine (safe_lift _).andThen fun i => ?_
    refine keeps_state.bind fun s tidy => ?_
    split
    · exact safe_throw _
    · rename_i c bound
      exact (safe_addArgument _ (tidy.constantAt bound)).andThen fun _ => safe_pure true
  | featureWeight => exact safe_weighDraft.andThen fun _ => safe_pure true
  | reportFeature => exact safe_reportDraft.andThen fun _ => safe_pure true
  | findall address => exact (nested address).andThen fun _ => safe_pure true

theorem safe_unifyFrom (cell : Nat) {values : List String} (lines : ∀ v ∈ values, Text.OnLine v) :
    Safe (Code.unifyFrom cell values) := by
  induction values generalizing cell with
  | nil => exact safe_pure true
  | cons v rest ih =>
    obtain ⟨line, others⟩ := List.forall_mem_cons.1 lines
    refine (safe_unifyConstant cell line).andThen fun goesOn => ?_
    split
    · exact ih (cell + 1) others
    · exact safe_pure false

end Exec

/-! ### Code -/

theorem holds_initial : tidyContract.Holds .initial :=
  ⟨State.Tidy.initial, legibleMap_nil, fun _ member => absurd member List.not_mem_nil⟩

namespace Code

variable {code : Code} {s : State}

/-- The instructions of tidy code are tidy. -/
theorem Tidy.fetch? (tidy : code.Tidy) {pc : Nat} {i : Instruction} (found : code.fetch? pc = some i) :
    i.Tidy := by
  unfold Code.fetch? at found
  split at found
  · exact tidy.program i (Array.mem_toList_iff.2 (Array.mem_of_getElem? found))
  · exact tidy.query i (Array.mem_toList_iff.2 (Array.mem_of_getElem? found))

theorem Tidy.suits (tidy : code.Tidy) : tidyContract.Suits code where
  step _ nested _ _ found := Exec.safe_step nested (tidy.fetch? found)
  move isTidy heap _ i c constant := isTidy i c (heap ▸ constant)
  nothing := legibleMap_nil
  merge legible areNames := legible.merge areNames
  rows r member label s rows isTidy found row isRow :=
    have rowTidy := tidy.relations r member label s.callArgs rows isTidy.callArgs found row isRow
    ⟨rowTidy.values, rowTidy.features⟩
  lookup _ _ _ _ _ _ := trivial
  unify lines _ holds _ := Exec.safe_unifyFrom _ lines _ holds
  badAddress _ _ := trivial
  badHeap _ _ := trivial
  nesting _ := trivial

/-- The steps from a tidy state carry legible features and lead to tidy states. -/
theorem Tidy.of_outlinks (tidy : code.Tidy) (isTidy : s.Tidy) {links : List Outlink}
    (done : (code.outlinks s .initial).1 = .ok links) :
    ∀ o ∈ links, o.child.Tidy ∧ LegibleMap o.features :=
  (tidy.suits.keeps_outlinks isTidy .initial holds_initial).good links done

end Code

/-- The start state of a tidy query is tidy. -/
theorem Machine.tidy_of_startQuery {program : Program} {relations : List Relation} {q : Query}
    (isProgram : TidyCode program.code.toList) (answers : ∀ r ∈ relations, r.Tidy) (isQuery : q.Tidy)
    {start : State} {m : Machine} (started : (Machine.new program relations).startQuery q = (.ok start, m)) :
    m.code.Tidy ∧ start.Tidy := by
  have tidy : ((Machine.new program relations).installed q).Tidy :=
    ⟨isProgram, Query.tidy_compile isQuery, answers⟩
  have keeps : Exec.Keeps tidyContract State.Tidy (do
      let _ ← ((Machine.new program relations).installed q).runFrom
        ((Machine.new program relations).installed q).search?
        ((Machine.new program relations).installed q).program.size
      Exec.state) :=
    (tidy.suits.keeps_runFrom (tidy.suits.neutral_findall _) _).bind fun _ _ => Exec.keeps_state
  obtain ⟨isStart, rfl⟩ := Prod.mk.inj started
  exact ⟨tidy, (keeps .initial holds_initial).good start isStart⟩

end ProofWalk
