import ProofWalk.Proofs.Bytecode.Blocks
import ProofWalk.Proofs.Machine.Merging
import ProofWalk.Proofs.Resolution.Failures
import ProofWalk.Proofs.Resolution.Solutions

/-!
# Safety of compiled code

Compiled code does not get stuck. Wherever runs of a query arrive, the steps from there fail at the features
only: no address, register or cell is out of place, and no feature is reported that has not begun. What is
executed of a clause, its searches included, lies in the code of the clause.

## Main definitions

* `Code.Executes` — what comes to be executed of a clause
* `Code.Stops` — how a run ends at an instruction

## Main results

* `Represents.outlinks_fail` — the steps from a state fail like the moves of its resolvent
* `Code.Executes.owned`, `Code.Executes.stops` — a clause is left by calls and returns only
* `Machine.never_stuck` — both, for every compiled program
-/

namespace ProofWalk

open Exec

/-! ### Steps -/

section
variable {m : Machine} {t : Theory} {root : Root} {start s : State}

/-- Runs arrive at states that stand for resolvents, whose goals are of predicates that those of the first one
come to call. -/
theorem Machine.Reaches.represents_within (obeys : m.code.Obeys t) (reaches : m.Reaches start s)
    {within : String → Prop} (closed : SelfContained (t.clauses.map (·.1)) within)
    (first : ∃ r silent, Represents m.code root start r silent ∧ ∀ g ∈ r.goals, within g.label) :
    ∃ r silent, Represents m.code root s r silent ∧ ∀ g ∈ r.goals, within g.label := by
  induction reaches with
  | start => exact first
  | @step s links link _ linked member ih =>
    obtain ⟨r, silent, represents, goals⟩ := ih
    obtain ⟨moves, foretold, follow⟩ := represents.links_follow obeys linked
    obtain ⟨move, isMove, follows⟩ := exists_of_forall₂ follow.flip member
    exact ⟨_, _, follows.represents, Theory.within_of_movesWith closed foretold isMove goals⟩

theorem Machine.Reaches.represents (obeys : m.code.Obeys t) (reaches : m.Reaches start s)
    (first : ∃ r silent, Represents m.code root start r silent) :
    ∃ r silent, Represents m.code root s r silent := by
  obtain ⟨r, silent, represents⟩ := first
  have closed : SelfContained (t.clauses.map (·.1)) fun _ => True := fun _ _ _ _ _ => trivial
  obtain ⟨r', silent', represents', -⟩ :=
    reaches.represents_within obeys closed ⟨r, silent, represents, fun _ _ => trivial⟩
  exact ⟨r', silent', represents'⟩

/-- The steps from a state fail like the moves of its resolvent. -/
theorem Represents.outlinks_fail {kind : Error → Prop} {r : Resolvent} {silent : List Variable}
    (represents : Represents m.code root s r silent) (obeys : m.code.Obeys t)
    (fails : FailsOnly kind (t.moves root r)) : FailsOnly kind (m.outlinks s).1 := by
  intro e failed
  apply fails
  exact (represents.outlinks obeys m.live).of_error failed

end

/-! ### Execution -/

namespace Code

variable {code : Code} {findall : Nat → Exec Unit} {entry stop pc : Nat} {live : Live}

/-- What comes to be executed of the clause that begins at an address: the clause is entered there,
instructions follow each other, a call that is resolved returns behind it, and a search begins at the address
that it names. -/
inductive Executes (code : Code) (findall : Nat → Exec Unit) (entry : Nat) : Live → Prop
  | enter {live : Live} (there : live.state.pc = entry) : Executes code findall entry live
  | next {live live' : Live} {i : Instruction} (before : Executes code findall entry live)
      (here : code.fetch? live.state.pc = some i) (stays : i.leaves = false)
      (done : step findall i live = (.ok true, live')) :
      Executes code findall entry { live' with state := { live'.state with pc := live.state.pc + 1 } }
  | resume {live live' : Live} {label : String} (before : Executes code findall entry live)
      (here : code.fetch? live.state.pc = some (.call label))
      (behind : live'.state.pc = live.state.pc + 1) : Executes code findall entry live'
  | search {live live' : Live} {address : Nat} (before : Executes code findall entry live)
      (here : code.fetch? live.state.pc = some (.findall address)) (there : live'.state.pc = address) :
      Executes code findall entry live'

/-- How a run ends at an instruction: it is a call or a return, or it clashes or fails. -/
inductive Stops (code : Code) (findall : Nat → Exec Unit) (last : Live) : Except Error Bool × Live → Prop
  | call {label : String} (here : code.fetch? last.state.pc = some (.call label)) :
      Stops code findall last ((park label >>= fun _ => pure false) last)
  | ret (here : code.fetch? last.state.pc = some .ret) : Stops code findall last (return? last)
  | clash {i : Instruction} {live : Live} (here : code.fetch? last.state.pc = some i)
      (stays : i.leaves = false) (done : step findall i last = (.ok false, live)) :
      Stops code findall last (.ok false, { live with state := { live.state with failed := true } })
  | fail {i : Instruction} {e : Error} {live : Live} (here : code.fetch? last.state.pc = some i)
      (stays : i.leaves = false) (done : step findall i last = (.error e, live)) :
      Stops code findall last (.error e, live)

theorem fetch?_of_inside (block : code.program.Block entry stop) (below : pc < stop) :
    code.fetch? pc = code.program.code[pc]? := by
  unfold fetch?
  rw [if_pos (Nat.lt_of_lt_of_le below block.inside)]

/-- What is executed of a clause lies in its block. -/
theorem Executes.inside (block : code.program.Block entry stop)
    (executes : code.Executes findall entry live) :
    entry ≤ live.state.pc ∧ live.state.pc < stop := by
  induction executes with
  | enter there =>
    rw [there]
    exact ⟨Nat.le_refl _, block.nonempty⟩
  | @next live live' i before here stays done ih =>
    rw [fetch?_of_inside block ih.2] at here
    rcases block.next _ ih.1 ih.2 with isReturn | below
    · -- only a return has nothing behind it, and a return does not go on
      rw [here] at isReturn
      cases isReturn
      cases stays
    · exact ⟨Nat.le_succ_of_le ih.1, below⟩
  | @resume live live' label before here behind ih =>
    rw [fetch?_of_inside block ih.2] at here
    rw [behind]
    rcases block.next _ ih.1 ih.2 with isReturn | below
    · rw [here] at isReturn
      cases isReturn
    · exact ⟨Nat.le_succ_of_le ih.1, below⟩
  | @search live live' address before here there ih =>
    rw [fetch?_of_inside block ih.2] at here
    rw [there]
    exact block.search _ address ih.1 ih.2 here

/-- What is executed of a clause belongs to it. -/
theorem Executes.owned (blocks : code.program.Blocks) {label : String}
    (isEntry : entry ∈ code.program.addresses label) (executes : code.Executes findall entry live) :
    code.program.Owns entry live.state.pc := by
  obtain ⟨stop, block, apart⟩ := blocks _ (Program.mem_entries_of_mem_addresses isEntry)
  obtain ⟨above, below⟩ := executes.inside block
  exact ⟨above, Nat.lt_of_lt_of_le below block.inside, fun other member behind =>
    Nat.lt_of_lt_of_le below (apart other member behind)⟩

/-- A run through a clause ends at an instruction of the clause. -/
theorem Executes.stops (blocks : code.program.Blocks) {label : String}
    (isEntry : entry ∈ code.program.addresses label) (executes : code.Executes findall entry live) :
    ∃ last, code.Executes findall entry last ∧
      code.Stops findall last (code.runSegment findall live.state.pc live) := by
  obtain ⟨stop, block, -⟩ := blocks _ (Program.mem_entries_of_mem_addresses isEntry)
  -- by induction on how much of the block lies ahead
  induction ahead : stop - live.state.pc generalizing live with
  | zero =>
    have inside := (executes.inside block).2
    omega
  | succ left ih =>
    have inside := (executes.inside block).2
    obtain ⟨i, here⟩ : ∃ i, code.fetch? live.state.pc = some i := by
      rw [fetch?_of_inside block inside]
      exact ⟨_, Array.getElem?_eq_getElem (Nat.lt_of_lt_of_le inside block.inside)⟩
    cases leaves : i.leaves with
    | true =>
      refine ⟨live, executes, ?_⟩
      cases i <;> cases leaves
      · rw [runSegment_call here]
        exact .call here
      · rw [runSegment_ret here]
        exact .ret here
    | false =>
      -- a line of one instruction, behind which less of the block lies ahead
      have placed : code.HasAt live.state.pc [i] := by
        intro k isFirst
        obtain rfl : k = 0 := by simpa using isFirst
        exact here
      rw [runSegment_line placed (by simpa using leaves)]
      rcases done : step findall i live with ⟨e | goesOn, live'⟩
      · have failed : line findall live.state.pc [i] live = (.error e, live') := bind_error done
        rw [failed]
        exact ⟨live, executes, .fail here leaves done⟩
      · cases goesOn with
        | false =>
          rw [line_clash done]
          exact ⟨live, executes, .clash here leaves done⟩
        | true =>
          rw [line_step done]
          refine ih (executes.next here leaves done) ?_
          change stop - (live.state.pc + 1) = left
          omega

end Code

/-- Compiled code does not get stuck. A query is always started, and wherever its runs arrive the steps fail
at a feature only, unless searches lie deeper in each other than the machine follows them. What is executed
of a clause belongs to this clause alone, and a run through it ends at one of its own instructions. -/
theorem Machine.never_stuck {m : Machine} {rules : List Rule}
    (compiled : compileRules rules = .ok m.code.program)
    (builtIn : ∀ relation ∈ m.code.relations, relation.isBuiltIn) (q : Query) :
    ∃ start m', m.startQuery q = (.ok start, m') ∧
      (∀ s, m'.Reaches start s → ∀ e, (m'.outlinks s).1 = .error e →
        (∃ register, e = .unboundFeatureVariable register) ∨ (∃ text, e = .badWeight text) ∨
          e = .nestingTooDeep m'.code.nestingLimit) ∧
      ∀ label, ∀ entry ∈ m'.code.program.addresses label, ∀ findall live,
        m'.code.Executes findall entry live →
          (∀ label', ∀ other ∈ m'.code.program.addresses label',
            m'.code.program.Owns other live.state.pc ↔ other = entry) ∧
          ∃ last, m'.code.Executes findall entry last ∧
            m'.code.Stops findall last (m'.code.runSegment findall live.state.pc live) := by
  obtain ⟨start, m', started, isCode, -, represents⟩ := m.startQuery_represents q
  have obeys := m.obeys_ofRules compiled (fun relation member => Relation.fits (builtIn relation member)) q
  rw [← isCode] at obeys represents
  have program : m'.code.program = m.code.program := by
    rw [isCode]
    rfl
  have limit : m'.code.nestingLimit = m.code.nestingLimit := by
    rw [isCode]
    rfl
  have blocks : m'.code.program.Blocks := program ▸ Program.blocks_of_compileRules compiled
  refine ⟨start, m', started, fun s reaches e failed => ?_, fun label entry isEntry findall live executes =>
    ⟨fun label' other isOther => ⟨fun owns => ?_, fun same => ?_⟩, executes.stops blocks isEntry⟩⟩
  · obtain ⟨r, silent, represents⟩ := reaches.represents obeys ⟨_, _, represents⟩
    cases represents.outlinks_fail obeys (Theory.moves_fail builtIn _ r) e failed with
    | report ofReport =>
      cases ofReport with
      | unbound register => exact .inl ⟨register, rfl⟩
      | weight text => exact .inr (.inl ⟨text, rfl⟩)
    | nesting => exact .inr (.inr (by rw [limit]; rfl))
  · exact owns.unique (Program.mem_entries_of_mem_addresses isOther)
      (Program.mem_entries_of_mem_addresses isEntry) (executes.owned blocks isEntry)
  · exact same ▸ executes.owned blocks isEntry

/-- A document is about what its words say, and every other word of it counts by its weight. -/
def topicRules : List Rule :=
  let x : Term := .var ⟨"X", 0⟩
  let t : Term := .var ⟨"T", 1⟩
  let w : Term := .var ⟨"W", 2⟩
  [⟨⟨"about", [x, t]⟩, [⟨"word", [x, w, .var ⟨"N", 3⟩]⟩, ⟨"says", [w, t]⟩],
      [⟨⟨"other", [w]⟩, .bound ⟨"N", 3⟩, [⟨"word", [x, w, .var ⟨"N", 3⟩]⟩, ⟨"neq", [w, t]⟩]⟩]⟩,
    ⟨⟨"word", [.constant "doc", .constant "tree", .constant "2"]⟩, [], []⟩,
    ⟨⟨"says", [.constant "tree", .constant "wood"]⟩, [], []⟩]

/-- What the document is about. -/
def askTopic : Query := ⟨⟨"about", [.constant "doc", .var ⟨"What", 0⟩]⟩, []⟩

/-- A clause with a search for weighted features, which a filter restricts. -/
theorem never_stuck_topics : ∃ program : Program, compileRules topicRules = .ok program ∧
    program.addresses "about/2" = [0] ∧ (∀ relation ∈ [Relation.filters], relation.isBuiltIn) ∧
    ∃ start m', (Machine.new program [.filters]).startQuery askTopic = (.ok start, m') ∧
      (∀ s, m'.Reaches start s → ∀ e, (m'.outlinks s).1 = .error e →
        (∃ register, e = .unboundFeatureVariable register) ∨ (∃ text, e = .badWeight text) ∨
          e = .nestingTooDeep m'.code.nestingLimit) ∧
      ∀ findall live, m'.code.Executes findall 0 live → ∃ last, m'.code.Executes findall 0 last ∧
        m'.code.Stops findall last (m'.code.runSegment findall live.state.pc live) := by
  have compiles : (compileRules topicRules).toOption.isSome = true := by decide +kernel
  have entries : ((compileRules topicRules).toOption.getD .empty).addresses "about/2" = [0] := by
    decide +kernel
  rcases compiled : compileRules topicRules with e | program
  · rw [compiled] at compiles
    cases compiles
  · rw [compiled] at entries
    change program.addresses "about/2" = [0] at entries
    have builtIn : ∀ relation ∈ [Relation.filters], relation.isBuiltIn := by decide
    obtain ⟨start, m', started, fails, runs⟩ :=
      @Machine.never_stuck (Machine.new program [.filters]) topicRules compiled builtIn askTopic
    have same : program = m'.code.program := congrArg (fun result => result.2.code.program) started
    have isEntry : 0 ∈ m'.code.program.addresses "about/2" := by
      rw [← same, entries]
      exact List.mem_singleton_self 0
    exact ⟨program, rfl, entries, builtIn, start, m', started, fails,
      fun findall live executes => (runs _ 0 isEntry findall live executes).2⟩

end ProofWalk
