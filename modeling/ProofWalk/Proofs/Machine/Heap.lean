import Mathlib.Logic.Relation
import ProofWalk.Proofs.Machine.Histories

/-!
# Well-formed heaps

A cell refers to itself or to an earlier one, and registers point into the heap. Every instruction keeps this,
whatever its operands are: a reference that is pushed leads to a cell that exists, and of two unbound cells
the later one is made to refer to the earlier one. So chains of references descend and end, for any code that
can be loaded and whatever is asked of the machine, also after requests that have failed.

## Main definitions

* `State.WellFormed` — references lead down, registers point into the heap
* `State.RefersTo`, `State.Resolves` — chains of references and where they end

## Main results

* `State.WellFormed.dereference` — following references ends within the heap
* `Exec.neutral_step` — every instruction keeps well-formed states
* `Machine.heap_wellFormed` — all histories of a machine lead to well-formed states
-/

namespace ProofWalk

namespace State

/-- Cells refer to themselves or to earlier ones, and registers point into the heap. -/
structure WellFormed (s : State) : Prop where
  refs : ∀ {i target : Nat}, s.heap[i]? = some (.ref target) → target ≤ i
  registers : ∀ {r cell : Nat}, s.registers[r]? = some (some cell) → cell < s.heap.size

/-- A cell refers to another one. -/
def RefersTo (s : State) (i target : Nat) : Prop := s.heap[i]? = some (.ref target) ∧ target ≠ i

/-- The chain of references from a cell leads down to a last one: a constant, or an unbound cell. -/
structure Resolves (s : State) (i last : Nat) : Prop where
  chain : Relation.ReflTransGen s.RefersTo i last
  last_le : last ≤ i
  ends : (∃ c, s.heap[last]? = some (.constant c)) ∨ s.heap[last]? = some (.ref last)

/-! ### References -/

namespace WellFormed

variable {s : State} {i : Nat}

theorem follow (wellFormed : s.WellFormed) {steps : Nat} (inside : i < s.heap.size) (enough : i < steps) :
    s.Resolves i (State.follow s.heap steps i) := by
  induction steps generalizing i with
  | zero => exact absurd enough (Nat.not_lt_zero i)
  | succ steps ih =>
    rw [State.follow]
    match found : s.heap[i]? with
    | some (.constant c) => exact ⟨.refl, Nat.le_refl _, .inl ⟨c, found⟩⟩
    | some (.ref target) =>
      dsimp only
      by_cases itself : target = i
      · rw [if_pos itself]
        exact ⟨.refl, Nat.le_refl _, .inr (itself ▸ found)⟩
      · rw [if_neg itself]
        have low := wellFormed.refs found
        obtain ⟨chain, last_le, ends⟩ := ih (i := target) (by omega) (by omega)
        exact ⟨.head ⟨found, itself⟩ chain, by omega, ends⟩
    | none => exact absurd (Array.getElem?_eq_none_iff.1 found) (by omega)

/-- Following references ends within the heap, at a constant or an unbound cell. -/
theorem dereference (wellFormed : s.WellFormed) (inside : i < s.heap.size) :
    s.Resolves i (s.dereference i) :=
  wellFormed.follow inside (by omega)

/-- So the cell at the end of a chain exists. -/
theorem dereference_lt (wellFormed : s.WellFormed) (inside : i < s.heap.size) :
    s.dereference i < s.heap.size :=
  Nat.lt_of_le_of_lt (wellFormed.dereference inside).last_le inside

/-! ### Changes -/

theorem initial : State.initial.WellFormed where
  refs found := by cases found
  registers found := by cases found

theorem push (wellFormed : s.WellFormed) {c : Cell} (low : ∀ target, c = .ref target → target ≤ s.heap.size) :
    (s.push c).WellFormed where
  refs {j target} found := by
    change (s.heap.push c)[j]? = _ at found
    rw [Array.getElem?_push] at found
    split at found
    next top => exact top ▸ low target (Option.some.inj found)
    next => exact wellFormed.refs found
  registers found := by
    change _ < (s.heap.push c).size
    rw [Array.size_push]
    exact Nat.lt_succ_of_lt (wellFormed.registers found)

theorem setCell (wellFormed : s.WellFormed) {c : Cell} (low : ∀ target, c = .ref target → target ≤ i) :
    (s.setCell i c).WellFormed where
  refs {j target} found := by
    change (s.heap.setIfInBounds i c)[j]? = _ at found
    rw [Array.getElem?_setIfInBounds] at found
    split at found
    next here =>
      split at found
      · exact here ▸ low target (Option.some.inj found)
      · cases found
    next => exact wellFormed.refs found
  registers found := by
    change _ < (s.heap.setIfInBounds i c).size
    rw [Array.size_setIfInBounds]
    exact wellFormed.registers found

/-- Moves that leave the heap as it is and set no register. -/
theorem move (wellFormed : s.WellFormed) {s' : State} (heap : s'.heap = s.heap)
    (registers : ∀ (r cell : Nat), s'.registers[r]? = some (some cell) → s.registers[r]? = some (some cell)) :
    s'.WellFormed where
  refs found := wellFormed.refs (heap ▸ found)
  registers found := by
    rw [heap]
    exact wellFormed.registers (registers _ _ found)

end WellFormed

/-! ### Operands -/

variable {s : State} {register relative : Int} {i : Nat}

/-- A register operand that is accepted is in range. -/
theorem lt_of_registerIndex (accepted : s.registerIndex register = .ok i) : i < s.registers.size := by
  unfold registerIndex at accepted
  split at accepted
  · cases accepted
    omega
  · cases accepted

/-- So is a heap operand. -/
theorem lt_of_heapIndex (accepted : s.heapIndex relative = .ok i) : i < s.heap.size := by
  unfold heapIndex at accepted
  split at accepted
  · cases accepted
    omega
  · cases accepted

theorem error_of_registerIndex {e : Error} (rejected : s.registerIndex register = .error e) :
    e = .badRegister register s.registers.size := by
  unfold registerIndex at rejected
  split at rejected <;> cases rejected
  rfl

theorem error_of_heapIndex {e : Error} (rejected : s.heapIndex relative = .error e) :
    e = .badHeapReference relative s.heap.size := by
  unfold heapIndex at rejected
  split at rejected <;> cases rejected
  rfl

/-- A register is read by its index, and has to be set. -/
theorem boundRegister_eq (s : State) (register : Int) :
    s.boundRegister register = (s.registerIndex register).bind fun r =>
      match s.registers[r]?.join with
      | some cell => .ok cell
      | none => .error (.badRegister register s.registers.size) := by
  unfold boundRegister State.register
  cases s.registerIndex register with
  | error e => rfl
  | ok r => cases held : s.registers[r]?.join <;> simp [Except.bind, held]

theorem error_of_boundRegister {e : Error} (rejected : s.boundRegister register = .error e) :
    e = .badRegister register s.registers.size := by
  rw [boundRegister_eq] at rejected
  cases index : s.registerIndex register with
  | error e' =>
    rw [index] at rejected
    cases rejected
    exact error_of_registerIndex index
  | ok r =>
    simp only [index, Except.bind] at rejected
    split at rejected <;> cases rejected
    rfl

/-- A register that is set points into the heap. -/
theorem WellFormed.lt_of_boundRegister (wellFormed : s.WellFormed) (bound : s.boundRegister register = .ok i) :
    i < s.heap.size := by
  rw [boundRegister_eq] at bound
  obtain ⟨r, -, read⟩ := Except.bind_eq_ok.1 bound
  split at read
  next cell held =>
    cases read
    exact wellFormed.registers (Option.join_eq_some_iff.1 held)
  next => cases read

end State

/-! ### Instructions -/

/-- Well-formed states, and no cell or register that is read without being there. -/
def heapContract : Contract where
  state := State.WellFormed
  features _ := True
  draft _ := True
  values _ := True
  error e := e ≠ .indexOutOfBounds

namespace Exec

variable {live : Live} {i j : Nat}

theorem holds_heapContract (wellFormed : live.state.WellFormed) : heapContract.Holds live :=
  ⟨wellFormed, trivial, fun _ _ => trivial⟩

theorem unifyConstant_keeps (wellFormed : live.state.WellFormed) (inside : i < live.state.heap.size)
    (c : String) : KeepsAt heapContract (fun _ => True) (unifyConstant i c) live := by
  rcases (wellFormed.dereference inside).ends with ⟨c', found⟩ | found
  · exact .of_ok (by simp only [unifyConstant, found]; rfl) (holds_heapContract wellFormed) trivial
  · refine .of_ok (by simp only [unifyConstant, found]; rfl) (holds_heapContract ?_) trivial
    exact wellFormed.setCell fun target isRef => by cases isRef

theorem unifyCells_keeps (wellFormed : live.state.WellFormed) (inside : i < live.state.heap.size)
    (inside' : j < live.state.heap.size) :
    KeepsAt heapContract (fun _ => True) (unifyCells i j) live := by
  rcases (wellFormed.dereference inside).ends with ⟨c, found⟩ | found <;>
    rcases (wellFormed.dereference inside').ends with ⟨c', found'⟩ | found'
  · exact .of_ok (by simp only [unifyCells, found, found']; rfl) (holds_heapContract wellFormed) trivial
  · refine .of_ok (by simp only [unifyCells, found, found']; rfl) (holds_heapContract ?_) trivial
    exact wellFormed.setCell fun target isRef => by cases isRef
  · refine .of_ok (by simp only [unifyCells, found, found']; rfl) (holds_heapContract ?_) trivial
    exact wellFormed.setCell fun target isRef => by cases isRef
  · by_cases same : live.state.dereference i = live.state.dereference j
    · exact .of_ok (by simp only [unifyCells, found, found', if_pos same]; rfl)
        (holds_heapContract wellFormed) trivial
    · refine .of_ok (by simp only [unifyCells, found, found', if_neg same]; rfl) (holds_heapContract ?_) trivial
      -- the later cell refers to the earlier one
      refine wellFormed.setCell fun target isRef => ?_
      cases isRef
      omega

theorem pushResolved_keeps (wellFormed : live.state.WellFormed) (inside : i < live.state.heap.size) :
    KeepsAt heapContract (fun _ => True) (pushResolved i) live := by
  rcases (wellFormed.dereference inside).ends with ⟨c, found⟩ | found
  · refine .of_ok (by simp only [pushResolved, found]; rfl) (holds_heapContract ?_) trivial
    exact wellFormed.push fun target isRef => by cases isRef
  · refine .of_ok (by simp only [pushResolved, found]; rfl) (holds_heapContract ?_) trivial
    refine wellFormed.push fun target isRef => ?_
    cases isRef
    exact Nat.le_of_lt (wellFormed.dereference_lt inside)

theorem setRegister_keeps (wellFormed : live.state.WellFormed) (register : Int) (value : State → Nat)
    (inside : value live.state < live.state.heap.size) :
    KeepsAt heapContract (fun _ => True) (tryUpdate fun s => s.setRegister register (value s)) live := by
  cases index : live.state.registerIndex register with
  | error e =>
    refine .of_error (by simp only [tryUpdate, State.setRegister, index]; rfl)
      (holds_heapContract wellFormed) ?_
    rw [State.error_of_registerIndex index]
    exact Error.noConfusion
  | ok r =>
    refine .of_ok (by simp only [tryUpdate, State.setRegister, index]; rfl) (holds_heapContract ?_) trivial
    refine ⟨wellFormed.refs, fun {r' cell} found => ?_⟩
    simp only [Array.getElem?_setIfInBounds] at found
    split at found
    · split at found <;> cases found
      exact inside
    · exact wellFormed.registers found

theorem neutral_draft (opcode : String) (f : FeatureDraft → FeatureDraft) :
    Neutral heapContract (draft opcode f) := by
  intro live holds
  match drafts : live.drafts with
  | [] => exact .of_error (by simp only [draft, drafts]; rfl) holds Error.noConfusion
  | d :: rest =>
    refine .of_ok (by simp only [draft, drafts]; rfl) (holds_heapContract ?_) trivial
    exact holds.state

theorem neutral_reportDraft : Neutral heapContract reportDraft := by
  intro live holds
  match drafts : live.drafts with
  | [] => exact .of_error (by simp only [reportDraft, drafts]; rfl) holds Error.noConfusion
  | d :: rest =>
    refine .of_ok (by simp only [reportDraft, drafts]; rfl) (holds_heapContract ?_) trivial
    exact holds.state

theorem neutral_weighDraft : Neutral heapContract weighDraft := by
  unfold weighDraft
  refine keeps_state.bind fun s _ => ?_
  by_cases low : s.heap.size < 2
  · simp only [if_pos low]
    exact .throw_bind Error.noConfusion _
  simp only [if_neg low]
  split
  · exact .throw Error.noConfusion
  · split
    · exact .throw Error.noConfusion
    · exact neutral_draft _ _

/-- Every instruction keeps well-formed states, whatever its operands are. -/
theorem neutral_step {findall : Nat → Exec Unit} (nested : ∀ address, Neutral heapContract (findall address))
    (i : Instruction) : Neutral heapContract (step findall i) := by
  intro live holds
  have wellFormed := holds.state
  cases i with
  | comment | call | ret => exact .pure holds trivial
  | allocate n =>
    have grows : Neutral heapContract
        (update fun s => { s with registers := s.registers ++ Array.replicate n none }) :=
      neutral_update fun s isKept => isKept.move rfl fun r cell found => by
        rw [Array.getElem?_append] at found
        split at found
        · exact found
        · rw [Array.getElem?_replicate] at found
          split at found <;> cases found
    exact (grows.andThen fun _ => .pure trivial) live holds
  | pushConstant c =>
    have pushes : Neutral heapContract (update (·.push (.constant c))) :=
      neutral_update fun s isKept => isKept.push fun target isRef => by cases isRef
    exact (pushes.andThen fun _ => .pure trivial) live holds
  | pushFree a =>
    have pushes : live.state.pushUnbound.WellFormed := wellFormed.push fun target isRef => by
      cases isRef
      exact Nat.le_refl _
    have sets : KeepsAt heapContract (fun _ => True)
        (tryUpdate fun s => s.setRegister a (s.heap.size - 1)) { live with state := live.state.pushUnbound } :=
      setRegister_keeps pushes a (fun s => s.heap.size - 1) (by simp [State.pushUnbound])
    exact .of_eq (update_bind _ _) (sets.bind fun _ live' _ holds' _ => .pure holds' trivial)
  | pushBound a =>
    refine .lift_bind holds (fun e rejected => ?_) fun i bound => ?_
    · rw [State.error_of_boundRegister rejected]
      exact Error.noConfusion
    · exact (pushResolved_keeps wellFormed (wellFormed.lt_of_boundRegister bound)).bind
        fun _ live' _ holds' _ => .pure holds' trivial
  | unifyConstant c argument =>
    refine .lift_bind holds (fun e rejected => ?_) fun i accepted => ?_
    · rw [State.error_of_heapIndex rejected]
      exact Error.noConfusion
    · exact unifyConstant_keeps wellFormed (State.lt_of_heapIndex accepted) c
  | takeArgument a argument =>
    refine .lift_bind holds (fun e rejected => ?_) fun i accepted => ?_
    · rw [State.error_of_heapIndex rejected]
      exact Error.noConfusion
    · exact (setRegister_keeps wellFormed a (fun _ => i) (State.lt_of_heapIndex accepted)).bind
        fun _ live' _ holds' _ => .pure holds' trivial
  | unifyBound a argument =>
    refine .lift_bind holds (fun e rejected => ?_) fun r bound => ?_
    · rw [State.error_of_boundRegister rejected]
      exact Error.noConfusion
    refine .lift_bind holds (fun e rejected => ?_) fun h accepted => ?_
    · rw [State.error_of_heapIndex rejected]
      exact Error.noConfusion
    · exact unifyCells_keeps wellFormed (wellFormed.lt_of_boundRegister bound) (State.lt_of_heapIndex accepted)
  | clearFeatures => exact .of_ok rfl (holds_heapContract wellFormed) trivial
  | beginFeature functor arity => exact .of_ok rfl (holds_heapContract wellFormed) trivial
  | featureConstant c => exact ((neutral_draft _ _).andThen fun _ => .pure trivial) live holds
  | featureBound a =>
    refine .lift_bind holds (fun e rejected => ?_) fun i bound => ?_
    · rw [State.error_of_boundRegister rejected]
      exact Error.noConfusion
    refine .of_eq (state_bind _) ?_
    split
    · exact .throw holds Error.noConfusion
    · exact ((neutral_draft _ _).andThen fun _ => .pure trivial) live holds
  | featureWeight => exact (neutral_weighDraft.andThen fun _ => .pure trivial) live holds
  | reportFeature => exact (neutral_reportDraft.andThen fun _ => .pure trivial) live holds
  | findall address => exact ((nested address).andThen fun _ => .pure trivial) live holds

theorem size_unifyConstant (i : Nat) (c : String) (live : Live) :
    (unifyConstant i c live).2.state.heap.size = live.state.heap.size := by
  unfold unifyConstant
  dsimp only
  split
  · rfl
  · exact Array.size_setIfInBounds
  · rfl

/-- Consecutive cells that exist are unified with constants. -/
theorem unifyFrom_keeps {values : List String} {cell : Nat} (holds : heapContract.Holds live)
    (fits : cell + values.length ≤ live.state.heap.size) :
    KeepsAt heapContract (fun _ => True) (Code.unifyFrom cell values) live := by
  induction values generalizing cell live with
  | nil => exact .pure holds trivial
  | cons v rest ih =>
    rw [List.length_cons] at fits
    have size := size_unifyConstant cell v live
    refine (unifyConstant_keeps holds.state (by omega) v).bind fun agrees live' done holds' _ => ?_
    rw [done] at size
    dsimp only at size
    split
    · exact ih holds' (by omega)
    · exact .pure holds' trivial

end Exec

/-! ### Histories -/

/-- All code keeps well-formed states, if the relations that it asks are tables. -/
theorem heapContract_suits {code : Code} (tables : ∀ r ∈ code.relations, r ≠ .filters) :
    heapContract.Suits code where
  step findall nested pc i _ := Exec.neutral_step nested i
  move wellFormed heap registers := wellFormed.move heap registers
  nothing := trivial
  merge _ _ := trivial
  rows _ _ _ _ _ _ _ _ _ := ⟨trivial, trivial⟩
  lookup r member label s e failed := by
    cases r with
    | filters => exact absurd rfl (tables _ member)
    | facts | splitFacts | edges | fixed => cases failed
  unify _ _ holds fits := Exec.unifyFrom_keeps holds (by omega)
  badAddress _ _ := Error.noConfusion
  badHeap _ _ := Error.noConfusion
  nesting _ := Error.noConfusion

/-- Whatever code a machine runs and whatever is asked of it in whatever order, also where requests fail: in
its state and in all saved states references lead down and registers point into the heap. So chains of
references end within the heap, at a constant or an unbound cell, operands that are accepted are in range,
and no request reads a cell or a register that is not there. -/
theorem Machine.heap_wellFormed {m₀ m : Machine} {saved : List State} (unused : m₀.live = .initial)
    (tables : ∀ r ∈ m₀.code.relations, r ≠ .filters) (history : m₀.History m saved) :
    (∀ s, s = m.live.state ∨ s ∈ saved →
      s.WellFormed ∧ (∀ i < s.heap.size, s.Resolves i (s.dereference i)) ∧
      (∀ register r, s.registerIndex register = .ok r → r < s.registers.size) ∧
      ∀ relative i, s.heapIndex relative = .ok i → i < s.heap.size) ∧
    ∀ r : Request, (∀ s ∈ r.needs, s ∈ saved) → (m.answer r).1 ≠ .error .indexOutOfBounds := by
  have suits : ∀ code, m₀.Installs code → heapContract.Suits code := by
    rintro code ⟨query, registers, rfl⟩
    exact heapContract_suits tables
  have start : heapContract.Holds m₀.live := by
    rw [unused]
    exact Exec.holds_heapContract .initial
  have values : ∀ values, heapContract.values values := fun _ => trivial
  obtain ⟨installs, holds, areKept⟩ := history.keeps suits .initial values start
  refine ⟨fun s isState => ?_, fun r own fails => ?_⟩
  · have wellFormed : s.WellFormed := by
      rcases isState with rfl | isSaved
      · exact holds.state
      · exact areKept s isSaved
    exact ⟨wellFormed, fun i inside => wellFormed.dereference inside, fun _ _ => State.lt_of_registerIndex,
      fun _ _ => State.lt_of_heapIndex⟩
  · have answered := Contract.Suits.answer_keeps
      (fun code isInstalled => suits code (installs.trans isInstalled)) .initial values holds
      fun s member => areKept s (own s member)
    exact answered.error _ fails rfl

/-- Code that no compiler emits: it makes cells refer to each other in both directions, and then reaches below
the heap. -/
def tangled : Program where
  code := #[.allocate 2, .pushFree (-1), .pushFree (-2), .unifyBound (-1) (-1), .takeArgument (-2) (-1),
    .pushBound (-2), .unifyBound (-2) (-1), .unifyConstant "a" (-9), .ret]
  entries := []

/-- It fails, and what it leaves is well-formed: three cells that stand for the first one. -/
theorem heap_wellFormed_tangled :
    (Machine.new tangled []).live = .initial ∧
      (∀ r ∈ (Machine.new tangled []).code.relations, r ≠ .filters) ∧
      ((Machine.new tangled []).answer (.executeFrom 0)).1.toOption = none ∧
      let s := ((Machine.new tangled []).answer (.executeFrom 0)).2.live.state
      s.heap = #[.ref 0, .ref 0, .ref 0] ∧ s.WellFormed ∧ s.Resolves 2 (s.dereference 2) := by
  have tables : ∀ r ∈ (Machine.new tangled []).code.relations, r ≠ .filters := fun r member =>
    absurd member List.not_mem_nil
  have heap : ((Machine.new tangled []).answer (.executeFrom 0)).2.live.state.heap =
      #[.ref 0, .ref 0, .ref 0] := by decide +kernel
  obtain ⟨wellFormed, chains, -⟩ := (Machine.heap_wellFormed rfl tables
    (.ask (.ask .begin (.executeFrom 0) fun s member => absurd member List.not_mem_nil) .save
      fun s member => absurd member List.not_mem_nil)).1 _ (.inl rfl)
  refine ⟨rfl, tables, by decide +kernel, heap, wellFormed, chains 2 ?_⟩
  change 2 < ((Machine.new tangled []).answer (.executeFrom 0)).2.live.state.heap.size
  rw [heap]
  decide

end ProofWalk
