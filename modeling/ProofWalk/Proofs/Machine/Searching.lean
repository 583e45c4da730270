import ProofWalk.Proofs.Bytecode.Blocks
import ProofWalk.Proofs.Decimal.RoundTrip
import ProofWalk.Proofs.Machine.Expansion
import ProofWalk.Proofs.Resolution.Solutions
import ProofWalk.Proofs.Text.Fields

/-!
# What a search reports

A feature that ranges over goals is searched for while its clause runs, in the middle of the state that the
clause has. The search leaves this state as it was. It adds up, name by name, what the feature says at the
ends of all derivations of its goals, if these do not come to call clauses with searches of their own.

The derivations begin from what the variables of the clause stand for, which is read off the state itself: a
register leads to a constant or to an unbound cell, and a variable without a register is new.

## Main definitions

* `State.meaning` — what the variables of the clause that runs stand for
* `FeatureTemplate.weightsFor` — the weights that a feature has for a name at the ends of derivations
* `AtSearch` — the machine is about to search for the goals of a feature
* `Machine.Meets` — the states at which a machine that runs a query stops, in searches and outside
* `State.subgoals` — the goals of a search, as a resolvent

## Main results

* `Running.own` — a clause that runs can be read off the state
* `AtSearch.running` — where a search begins its clause is running
* `AtSearch.adds`, `Machine.search_adds_solutions` — what a search leaves behind
-/

namespace ProofWalk

open Exec

/-! ### Reading a state -/

/-- The term that a cell stands for: its constant, or a variable for the unbound cell that it leads to. -/
def State.reading (s : State) (i : Nat) : Term :=
  match s.constantAt i with
  | some c => .constant c
  | none => .var ⟨"", s.dereference i⟩

/-- What the variables of the clause that runs stand for: what their registers point to, or a variable of
their own where the register is not set. -/
def State.meaning (s : State) (regs : Registers) : Substitution := fun v =>
  match s.register (regs.operand v) with
  | .ok (some cell) => s.reading cell
  | _ => .var ⟨"", s.heap.size + regs.order.idxOf v⟩

section Reading

variable {s : State} {read : Nat → Term}

theorem Reads.reading_eq (reads : Reads s.heap read) {i : Nat} (inside : i < s.heap.size) :
    s.reading i = match read i with
      | .constant c => .constant c
      | .var _ => .var ⟨"", s.dereference i⟩ := by
  rw [State.reading, reads.constantAt_eq inside]
  cases read i <;> rfl

/-- A heap that reads as some terms reads as its own, in which unbound cells are variables. -/
theorem Reads.own (reads : Reads s.heap read) : Reads s.heap s.reading := by
  have within {i : Nat} {cell : Cell} (isCell : s.heap[i]? = some cell) : i < s.heap.size :=
    (Array.getElem?_eq_some_iff.1 isCell).1
  constructor
  case constant =>
    intro i c isCell
    rw [reads.reading_eq (within isCell), reads.constant isCell]
  case ref =>
    intro i t isCell
    obtain ⟨below, same⟩ := reads.ref isCell
    have inside := within isCell
    apply And.intro below
    rw [reads.reading_eq inside, reads.reading_eq (by omega : t < s.heap.size), same]
    cases term : read i with
    | constant c => rfl
    | var x =>
      -- both chains end at the one cell that stands for the variable
      have left := reads.cell_of_var (by omega : t < s.heap.size) (same.trans term)
      have right := reads.cell_of_var inside term
      have ends : s.dereference t = s.dereference i := by
        apply reads.distinct left right
        rw [(reads.dereference (by omega : t < s.heap.size)).2.1, (reads.dereference inside).2.1, same]
      rw [ends]
  case unbound =>
    intro i isCell
    obtain ⟨v, free⟩ := reads.unbound isCell
    rw [reads.reading_eq (within isCell), free]
    exact ⟨_, rfl⟩
  case distinct =>
    intro i j left right same
    have ends {k : Nat} (isCell : s.heap[k]? = some (.ref k)) : s.dereference k = k := by
      simp [State.dereference, State.follow, isCell]
    obtain ⟨v, freeLeft⟩ := reads.unbound left
    obtain ⟨w, freeRight⟩ := reads.unbound right
    rw [reads.reading_eq (within left), reads.reading_eq (within right), freeLeft, freeRight, ends left,
      ends right] at same
    cases same
    rfl

end Reading

section Meaning

variable {code : Code} {read : Nat → Term} {next : Nat} {s : State} {a : Activation}
  {callers : List Activation} {v : Variable}

theorem Running.meaning_of_unset (running : Running code read next s a callers) (free : v ∈ a.unset) :
    s.meaning ⟨a.vars⟩ v = .var ⟨"", s.heap.size + a.vars.idxOf v⟩ := by
  have known := (Activation.mem_unset.1 free).1
  have register : s.register ((⟨a.vars⟩ : Registers).operand v) = .ok none := by
    simp [State.register, running.registerIndex known, running.window.unset v free]
  rw [State.meaning, register]

/-- A state that runs a clause runs it by its own reading, whoever has called the clause. -/
theorem Running.own (running : Running code read next s a callers) :
    Running code s.reading (s.heap.size + a.vars.length) { s with calls := [] }
      { a with value := s.meaning ⟨a.vars⟩ } [] := by
  set b : Activation := { a with value := s.meaning ⟨a.vars⟩ }
  have unsets : b.unsetValues = a.unset.map fun v => .var ⟨"", s.heap.size + a.vars.idxOf v⟩ :=
    List.map_congr_left fun v free => running.meaning_of_unset free
  have bounded {i : Nat} (inside : i < s.heap.size) {x : Variable} (isVar : s.reading i = .var x) :
      x.serial < s.heap.size := by
    rw [running.reads.reading_eq inside] at isVar
    cases term : read i with
    | constant c =>
      rw [term] at isVar
      cases isVar
    | var y =>
      rw [term] at isVar
      cases isVar
      exact (running.reads.dereference inside).1
  constructor
  case reads => exact running.reads.own
  -- a variable that is not set yet reads as a cell above the heap, one for each register
  case fresh =>
    constructor
    case bounded =>
      intro i inside x isVar
      exact Nat.lt_of_lt_of_le (bounded inside isVar) (Nat.le_add_right ..)
    case free =>
      intro t member
      rw [List.flatMap_singleton, unsets] at member
      obtain ⟨v, free, rfl⟩ := List.mem_map.1 member
      have index := List.idxOf_lt_length_of_mem (Activation.mem_unset.1 free).1
      refine ⟨_, rfl, Nat.add_lt_add_left index _, fun i inside isVar => ?_⟩
      have below := bounded inside isVar
      change s.heap.size + _ < s.heap.size at below
      omega
    case nodup =>
      rw [List.flatMap_singleton, unsets]
      apply List.Nodup.map_on _ (running.window.nodup.filter _)
      intro v free w free' same
      have index : s.heap.size + a.vars.idxOf v = s.heap.size + a.vars.idxOf w :=
        congrArg Variable.serial (Term.var.inj same)
      exact (List.idxOf_inj (Activation.mem_unset.1 free).1).1 (Nat.add_left_cancel index)
  case window =>
    refine ⟨running.window.nodup, running.window.room, fun v seen => ?_, running.window.unset⟩
    obtain ⟨known, cell, inside, held, -⟩ := running.window.set v seen
    refine ⟨known, cell, inside, held, ?_⟩
    have register : s.register ((⟨a.vars⟩ : Registers).operand v) = .ok (some cell) := by
      simp [State.register, running.registerIndex known, held]
    change s.reading cell = s.meaning ⟨a.vars⟩ v
    rw [State.meaning, register]
  case callers => exact .nil
  case completed => exact running.completed
  case failed => exact running.failed
  case pending => exact running.pending

end Meaning

/-! ### What a feature says -/

/-- The number that the weight of a feature stands for. -/
def FeatureWeight.value? (value : Substitution) : FeatureWeight → Option Float
  | .unit => some 1
  | .fixed w => some w
  | .bound v => (value v).constant?.bind Decimal.read?

/-- The weights of a feature at those ends of derivations at which it is written as a name. -/
def FeatureTemplate.weightsFor (f : FeatureTemplate) (root : Root) (name : String)
    (ends : List Resolvent) : List Float :=
  ends.filterMap fun e =>
    if (f.goal.mapVariables (e.value root)).text = name then f.weight.value? (e.value root) else none

theorem FeatureWeight.value?_of_number {w : FeatureWeight} {value : Substitution} {x : Float}
    (isNumber : w.number value = .ok x) : w.value? value = some x := by
  -- a text stands for the number that it reads as
  have reads {text : String} (isWeight : readWeight text = .ok x) : Decimal.read? text = some x := by
    unfold readWeight at isWeight
    split at isWeight
    · rename_i found
      rw [found, Except.ok.inj isWeight]
    · cases isWeight
  cases w with
  | unit => exact congrArg some (Except.ok.inj isNumber)
  | fixed w =>
    rw [← reads isNumber, Decimal.read?, Decimal.plain, String.toList_ofList,
      Decimal.readChars?_plainChars]
    rfl
  | bound v =>
    rw [number] at isNumber
    rw [value?]
    cases term : value v with
    | var x =>
      rw [term] at isNumber
      cases isNumber
    | constant c =>
      rw [term] at isNumber
      exact reads isNumber

/-- A feature is named as a goal is written. -/
theorem Goal.text_ofConstants (functor : String) (args : List String) (weight : Float) :
    (ofConstants functor args).text = ({ functor, args, weight } : FeatureDraft).name := by
  apply String.toList_injective
  rw [Goal.text, String.toList_ofList, FeatureDraft.name, Goal.chars, ofConstants]
  cases args with
  | nil => rfl
  | cons c rest =>
    have names : (List.map Term.constant (c :: rest)).map Term.chars = (c :: rest).map String.toList := by
      rw [List.map_map]
      rfl
    simp only [List.map_cons, String.toList_append, String.toList_intercalate]
    rw [← List.map_cons, ← List.map_cons, names, Text.joinWith_eq_intercalate]
    simp

/-- What a feature reports is its name and its weight under what the variables stand for. -/
theorem FeatureTemplate.report_eq_ok {f : FeatureTemplate} {regs : Registers} {value : Substitution}
    {name : String} {weight : Float} (reported : f.report regs value = .ok (name, weight)) :
    (f.goal.mapVariables value).text = name ∧ (f.goal.mapVariables value).isGround ∧
      f.weight.value? value = some weight := by
  obtain ⟨args, foundArgs, others⟩ := Except.bind_eq_ok.1 reported
  obtain ⟨w, foundWeight, equal⟩ := Except.bind_eq_ok.1 others
  cases equal
  have constants : f.goal.args.map (·.mapVariable value) = args.map .constant := by
    apply List.forall₂_eq_eq_eq ▸ List.forall₂_map_left_iff.2 (List.forall₂_map_right_iff.2 _)
    apply (Except.forall₂_of_mapM foundArgs).imp
    intro t c isArgument
    cases t with
    | constant d => exact congrArg Term.constant (Except.ok.inj isArgument)
    | var v =>
      rw [Registers.argument] at isArgument
      rw [Term.mapVariable_var]
      cases term : value v with
      | constant d =>
        rw [term] at isArgument
        exact congrArg Term.constant (Except.ok.inj isArgument)
      | var x =>
        rw [term] at isArgument
        cases isArgument
  have isGoal : f.goal.mapVariables value = .ofConstants f.goal.functor args := by
    rw [Goal.mapVariables, constants]
    rfl
  rw [isGoal]
  refine ⟨Goal.text_ofConstants .., ?_, FeatureWeight.value?_of_number foundWeight⟩
  simp [Goal.isGround, Goal.ofConstants, Term.constant?]

/-- What the reports at the ends of derivations hold for a name. -/
theorem FeatureTemplate.weightsOf_reports {f : FeatureTemplate} {root : Root} {ends : List Resolvent}
    {reports : FeatureMap}
    (reported : List.Forall₂ (fun e report => f.report ⟨root.vars⟩ (e.value root) = .ok report) ends reports)
    (name : String) : FeatureMap.weightsOf name reports = f.weightsFor root name ends := by
  induction reported with
  | nil => rfl
  | @cons e report ends reports first _ ih =>
    obtain ⟨other, w⟩ := report
    obtain ⟨isName, -, isWeight⟩ := report_eq_ok first
    rw [FeatureMap.weightsOf_cons, ih, weightsFor, weightsFor, List.filterMap_cons, isName, isWeight]
    by_cases same : other = name
    · rw [if_pos same, if_pos same]
    · rw [if_neg same, if_neg same]

/-! ### Where a search begins -/

/-- The machine is about to search for the goals of a feature: it has entered a clause of the predicate that a
state calls, the head of the clause is unified, and the features before this one are reported. -/
inductive AtSearch (code : Code) (rules : List Rule) (findall : Nat → Exec Unit) (s : State) (rule : Rule)
    (f : FeatureTemplate) (target : Nat) (live : Live) : Prop
  | intro {label : String} {address : Nat} {before after : List FeatureTemplate} {ran : List Instruction}
    (calls : s.pending = some label)
    (clause : (rule, address) ∈ (rules.filter (·.lhs.label = label)).zip (code.program.addresses label))
    (states : rule.features = before ++ f :: after) (ranges : f.findall ≠ [])
    (placed : code.HasAt address (ran ++ [.findall target])) (stays : ∀ i ∈ ran, i.leaves = false)
    (earlier : (targets ran).length = (before.filter fun f => !f.findall.isEmpty).length)
    (passed : line findall address ran
      { state := { s with pc := address, pending := none }, features := [], drafts := [] } = (.ok true, live))

section

variable {code : Code} {rules : List Rule} {findall : Nat → Exec Unit} {s : State} {rule : Rule}
  {f : FeatureTemplate} {target : Nat} {live : Live}

/-- The clauses of a predicate lie at its addresses. -/
theorem Code.Obeys.clauseAt {t : Theory} (obeys : code.Obeys t) {label : String} {address : Nat}
    (clause : (rule, address) ∈
      ((t.clauses.map (·.1)).filter (·.lhs.label = label)).zip (code.program.addresses label)) :
    rule.lhs.label = label ∧ ∃ number, ClauseAt code address rule number := by
  have placed : List.Forall₂ (fun rule address => ∃ number, ClauseAt code address rule number)
      ((t.clauses.map (·.1)).filter (·.lhs.label = label)) (code.program.addresses label) := by
    rw [List.filter_map]
    apply List.forall₂_map_left_iff.2
    exact (obeys.clauses label).imp fun clause address there => ⟨clause.2, there⟩
  have isClause := (List.mem_filter.1 (List.of_mem_zip clause).1).2
  exact ⟨of_decide_eq_true isClause, (List.forall₂_iff_zip.1 placed).2 clause⟩

/-- Features are reported into a map whose names stand in order. -/
theorem Theory.ordered_of_addReports {nested : Root → Resolvent → Except Error FeatureMap}
    {regs : Registers} {value : Substitution} {next : Nat} {features : List FeatureTemplate}
    {found found' : FeatureMap} (ordered : found.Ordered)
    (added : features.foldlM (addReport nested regs value next) found = .ok found') : found'.Ordered := by
  induction features generalizing found with
  | nil =>
    cases added
    exact ordered
  | cons f rest ih =>
    rw [List.foldlM_cons] at added
    obtain ⟨middle, here, others⟩ := Except.bind_eq_ok.1 added
    apply ih _ others
    unfold addReport at here
    split at here
    · obtain ⟨⟨name, weight⟩, -, equal⟩ := Except.bind_eq_ok.1 here
      cases equal
      exact ordered.alter name _
    · obtain ⟨more, -, equal⟩ := Except.bind_eq_ok.1 here
      cases equal
      exact ordered.merge more

/-- The code of a clause before a search of it: its head, and the features before the one that searches. -/
theorem ClauseAt.before_search {code : Code} {address number : Nat} {rule : Rule}
    {before after : List FeatureTemplate} {f : FeatureTemplate} (there : ClauseAt code address rule number)
    (states : rule.features = before ++ f :: after) (ranges : f.findall ≠ []) :
    ∃ plain addresses target back instructions,
      code.HasAt address (((.comment rule.text :: .allocate (Registers.ofRule rule).order.length ::
        rule.headCode) ++ .clearFeatures :: placeFeatures plain addresses) ++
          .findall target :: (back ++ [.ret])) ∧
      before.mapM (plainCode (.ofRule rule) rule.met) = .ok plain ∧
      RangingAt code (.ofRule rule) rule.met before addresses ∧
      (targets (placeFeatures plain addresses)).length =
        (before.filter fun f => !f.findall.isEmpty).length ∧
      compileFindall (.ofRule rule) rule.met f = .ok instructions ∧ code.HasAt target instructions := by
  obtain ⟨plain, addresses, compiled, ranging, front⟩ := there.placed
  rw [states] at compiled ranging
  obtain ⟨plain', addresses', target, back, place, compiledBefore, rangingBefore, count, instructions,
    found⟩ := placeFeatures_split ranges compiled ranging
  refine ⟨plain', addresses', target, back ++ (compileGoals (.ofRule rule) rule.met rule.rhs).1, instructions,
    ?_, compiledBefore, rangingBefore, count, found⟩
  rw [place, if_neg (by simp [states])] at front
  simpa [Rule.headCode, Rule.met] using front

/-- Where a search begins the clause of the feature is running, with the code of its goals at the target. -/
theorem AtSearch.running {t : Theory} {root : Root} {r : Resolvent} {silent : List Variable}
    {nested : Root → Resolvent → Except Error FeatureMap} (obeys : code.Obeys t)
    (nests : Nests code findall nested) (represents : Represents code root s r silent)
    (here : AtSearch code (t.clauses.map (·.1)) findall s rule f target live) :
    f ∈ rule.features ∧ f.findall ≠ [] ∧ live.features.Ordered ∧
      ∃ read next a callers instructions, Running code read next live.state a callers ∧
        a.vars = (Registers.ofRule rule).order ∧ compileFindall ⟨a.vars⟩ a.seen f = .ok instructions ∧
        code.HasAt target instructions := by
  cases here with
  | @intro label address before after ran calls clause states ranges placed stays earlier passed =>
    obtain ⟨isLabel, number, clauseAt⟩ := obeys.clauseAt clause
    obtain ⟨read, activations, waiting⟩ | ⟨read, a, solved⟩ := represents
    case inr => simp [solved.pending] at calls
    obtain ⟨g, goals, isPending, -⟩ := waiting.goal
    have same : rule.lhs.label = g.label := isLabel.trans (Option.some.inj (calls.symm.trans isPending))
    -- what has run is the head and the features before this one
    obtain ⟨plain, addresses, target', back, instructions, whole, compiled, ranging, count, compiledFindall,
      there⟩ := clauseAt.before_search states ranges
    set head := Instruction.comment rule.text :: .allocate (Registers.ofRule rule).order.length ::
      rule.headCode
    obtain ⟨behind, split⟩ := placed.prefix_of_stays (fun i member => by
      rcases List.mem_append.1 member with inRan | isLast
      · exact stays i inRan
      · rw [List.mem_singleton.1 isLast]
        rfl) (by rw [← List.cons_append, ← List.append_assoc] at whole; exact whole)
    have noneInHead : targets head = [] := by simp [head, Rule.headCode, Instruction.target?]
    rw [List.append_assoc, List.append_assoc] at split
    obtain ⟨rfl, rfl⟩ := eq_of_targets split (by
      rw [earlier, targets_append, noneInHead, ← count]
      rfl)
    -- the head is unified
    obtain ⟨opened, opening, -, noFeatures, noDrafts, solves⟩ := waiting.enter findall address goals same
    rw [line_append, opening] at passed
    rcases result : line findall (address + 1 + 1) rule.headCode opened with ⟨ok, unified⟩
    rw [result] at solves passed
    cases solved : unifier? (headEquations (apart r.next) read (s.heap.size - g.arity) rule.lhs.args) with
    | none =>
      rw [solved] at solves
      obtain ⟨rfl, -⟩ := solves
      cases passed
    | some θ =>
      rw [solved] at solves
      obtain ⟨rfl, shape, running⟩ := solves
      set a : Activation := { (rule.activation r.next).under θ with seen := rule.met }
      -- the features are reported
      let cleared : Live :=
        { unified with state := { unified.state with pc := address + head.length + 1 }, features := [] }
      change line findall _ (.clearFeatures :: placeFeatures plain addresses) unified = _ at passed
      rw [line_step (show step findall .clearFeatures unified = (.ok true, { unified with features := [] })
        from rfl)] at passed
      have known : ∀ e ∈ before, ∀ g ∈ e.findall, ∀ v ∈ g.vars, v ∈ a.vars :=
        fun e member g inFindall v inGoal =>
          Rule.mem_order_of_findall (by rw [states]; simp [member]) inFindall inGoal
      have reported : Yields (line findall (address + head.length + 1) (placeFeatures plain addresses))
          cleared _ _ := Running.reportFeatures cleared nests (running.setPc _) known compiled ranging
      obtain ⟨found, foretold, -, ⟨read', running'⟩, -, isFound, -⟩ := reported.of_ok passed
      refine ⟨by simp [states], ranges, ?_, read', _, a, _, instructions, running', rfl, compiledFindall,
        there⟩
      rw [isFound]
      exact Theory.ordered_of_addReports FeatureMap.ordered_nil foretold

end

/-! ### Where a machine stops -/

/-- The states at which a machine that runs a query stops: the first one, those one step away from another,
and those at which it begins to prove the goals of a search. Searches may lie in searches, so that steps are
taken at every depth of nesting. -/
inductive Machine.Meets (m : Machine) (rules : List Rule) (start : State) : State → Prop
  | start : Meets m rules start start
  | step {s : State} {n : Nat} {live live' : Live} {branches : List Branch} {b : Branch}
    (meets : Meets m rules start s)
    (expanded : m.code.expandWith (m.code.findall n) s live = (.ok branches, live')) (member : b ∈ branches) :
    Meets m rules start b.child
  | search {s : State} {n target : Nat} {rule : Rule} {f : FeatureTemplate} {live stopped : Live}
    {found : FeatureMap} (meets : Meets m rules start s)
    (here : AtSearch m.code rules (m.code.findall n) s rule f target live)
    (ran : m.code.runFrom (m.code.findall n) target
      { state := { live.state with calls := [] }, features := [], drafts := [] } = (.ok found, stopped)) :
    Meets m rules start stopped.state

/-- A machine stops at states that stand for resolvents. -/
theorem Machine.Meets.represents {m : Machine} {t : Theory} {start s : State} (obeys : m.code.Obeys t)
    (meets : m.Meets (t.clauses.map (·.1)) start s)
    (first : ∃ root r silent, Represents m.code root start r silent) :
    ∃ root r silent, Represents m.code root s r silent := by
  induction meets with
  | start => exact first
  | @step s n live live' branches b _ expanded member ih =>
    obtain ⟨root, r, silent, represents⟩ := ih
    obtain ⟨moves, -, arrive⟩ := (represents.expandWith obeys (obeys.nests n) live).of_ok expanded
    obtain ⟨move, -, arrives⟩ := exists_of_forall₂ arrive.flip member
    exact ⟨_, _, _, arrives.represents⟩
  | @search s n target rule f live stopped found _ here ran ih =>
    obtain ⟨root, r, silent, represents⟩ := ih
    obtain ⟨member, ranges, -, read, next, a, callers, instructions, running, vars, compiled, there⟩ :=
      here.running obeys (obeys.nests n) represents
    have known : ∀ g ∈ f.findall, ∀ v ∈ g.vars, v ∈ a.vars := fun g inFindall v inGoal =>
      vars ▸ Rule.mem_order_of_findall member inFindall inGoal
    obtain ⟨stopped', done, silent', represents'⟩ :=
      running.startSearch (m.code.findall n) ranges known compiled there
    rw [ran] at done
    cases done
    exact ⟨_, _, _, represents'⟩

/-! ### What a search adds -/

/-- The goals of a feature of a clause that runs, under what the variables of the clause stand for. -/
def State.subgoals (s : State) (rule : Rule) (f : FeatureTemplate) : Resolvent :=
  let regs := Registers.ofRule rule
  { answer := regs.order.map (s.meaning regs)
    goals := f.findall.map (·.mapVariables (s.meaning regs))
    next := s.heap.size + regs.order.length }

/-- The root of a search for the goals of a feature. -/
def Rule.searchRoot (rule : Rule) (f : FeatureTemplate) : Root :=
  { vars := (Registers.ofRule rule).order, closing := some f }

theorem Code.findall_calls (code : Code) (n target : Nat) (live : Live) (calls : List Frame) :
    (code.findall n target { live with state := { live.state with calls } }).1 =
        (code.findall n target live).1 ∧
      (code.findall n target { live with state := { live.state with calls } }).2.features =
        (code.findall n target live).2.features := by
  cases n with
  | zero => exact ⟨rfl, rfl⟩
  | succ n =>
    have same : code.collect (code.findall n) target
          { state := { live.state with calls }, features := [], drafts := [] } =
        code.collect (code.findall n) target { state := live.state, features := [], drafts := [] } := by
      rw [Code.collect, update_bind, update_bind]
    simp only [Code.findall, same]
    rcases code.collect (code.findall n) target { state := live.state, features := [], drafts := [] } with
      ⟨e | found, last⟩ <;> exact ⟨rfl, rfl⟩

/-- A search that comes to its end reports features, and leaves everything else as it was. -/
theorem Code.findall_eq_ok {code : Code} {n target : Nat} {live live' : Live}
    (done : code.findall n target live = (.ok (), live')) :
    live' = { live with features := live'.features } := by
  cases n with
  | zero => cases done
  | succ n =>
    rw [Code.findall] at done
    rcases result : code.collect (code.findall n) target { live with features := [], drafts := [] } with
      ⟨e | found, last⟩
    · rw [result] at done
      cases done
    · rw [result] at done
      cases done
      rfl

section

variable {code : Code} {s : State} {rule : Rule} {f : FeatureTemplate} {n target : Nat} {live live' : Live}

/-- A search that comes to its end goes on behind its instruction, and adds to the features what the theory
reports about the goals as they stand. -/
theorem AtSearch.reports {t : Theory} {root : Root} {r : Resolvent} {silent : List Variable}
    (obeys : code.Obeys t) (represents : Represents code root s r silent)
    (here : AtSearch code (t.clauses.map (·.1)) (code.findall n) s rule f target live)
    (done : line (code.findall n) live.state.pc [.findall target] live = (.ok true, live')) :
    live'.state = { live.state with pc := live.state.pc + 1 } ∧ live'.drafts = live.drafts ∧
      ∃ found, t.nested n (rule.searchRoot f) (live.state.subgoals rule f) = .ok found ∧
        live'.features = FeatureMap.merge live.features found := by
  obtain ⟨member, ranges, -, read, next, a, callers, instructions, running, vars, compiled, there⟩ :=
    here.running obeys (obeys.nests n) represents
  rcases result : code.findall n target live with ⟨e | ⟨⟩, last⟩
  · have failed : (step (code.findall n) (.findall target) live).1 = .error e :=
      bind_error_fst (congrArg Prod.fst result)
    have stopped : (line (code.findall n) live.state.pc [.findall target] live).1 = .error e :=
      line_error failed
    rw [done] at stopped
    cases stopped
  · have stepped : step (code.findall n) (.findall target) live = (.ok true, last) := bind_ok result
    rw [line_step stepped] at done
    cases done
    have frame := Code.findall_eq_ok result
    apply And.intro (by rw [frame])
    apply And.intro (by rw [frame])
    -- the search is that of the theory, from the reading of the state itself
    have known : ∀ g ∈ f.findall, ∀ v ∈ g.vars, v ∈ a.vars := fun g inFindall v inGoal =>
      vars ▸ Rule.mem_order_of_findall member inFindall inGoal
    have regs : (⟨a.vars⟩ : Registers) = .ofRule rule := by rw [vars]
    have yields : Yields (code.findall n target) { live with state := { live.state with calls := [] } } _ _ :=
      obeys.nests n running.own ranges known compiled there
    rw [regs, vars] at yields
    -- it does not matter to a search who called the clause
    obtain ⟨sameResult, sameFeatures⟩ := code.findall_calls n target live []
    rw [result] at sameResult sameFeatures
    have ended : _ = Except.ok () := sameResult
    obtain ⟨found, foretold, isLast⟩ := yields.of_ok (Prod.ext ended rfl)
    exact ⟨found, foretold, sameFeatures.symm.trans (congrArg Live.features isLast)⟩

/-- A search for the goals of a feature, none of which comes to call a predicate with searches of its own,
adds up by name what the feature says at the ends of all derivations of its goals. -/
theorem AtSearch.adds {t : Theory} {root : Root} {r : Resolvent} {silent : List Variable}
    {tables : List (List Fact)} (obeys : code.Obeys t) (represents : Represents code root s r silent)
    (stores : List.Forall₂ Relation.Stores t.relations tables)
    (fits : ∀ fact ∈ tables.flatten, fact.args.length < Text.wordLimit)
    (here : AtSearch code (t.clauses.map (·.1)) (code.findall n) s rule f target live)
    (plain : ∀ other ∈ t.clauses.map (·.1), Reachable (t.clauses.map (·.1)) f.findall other.lhs.label →
      other.isPlain)
    (done : line (code.findall n) live.state.pc [.findall target] live = (.ok true, live')) :
    live'.state = { live.state with pc := live.state.pc + 1 } ∧ live'.drafts = live.drafts ∧
      ∃ ends, ends.Perm ((live.state.subgoals rule f).solved (t.clauses.map (·.1)) tables.flatten
          code.findallDepth) ∧
        (∀ e ∈ ends, (f.goal.mapVariables (e.value (rule.searchRoot f))).isGround ∧
          (f.weight.value? (e.value (rule.searchRoot f))).isSome) ∧
        ∀ name, live'.features.lookup name =
          match f.weightsFor (rule.searchRoot f) name ends with
          | [] => live.features.lookup name
          | ws => some ((live.features.lookup name).getD 0 + ws.foldl (· + ·) 0) := by
  obtain ⟨-, ranges, ordered, -⟩ := here.running obeys (obeys.nests n) represents
  obtain ⟨isState, isDrafts, found, foretold, added⟩ := here.reports obeys represents done
  refine ⟨isState, isDrafts, ?_⟩
  have labels : ∀ g ∈ (live.state.subgoals rule f).goals,
      Reachable (t.clauses.map (·.1)) f.findall g.label := by
    intro g inGoals
    obtain ⟨h, inFindall, rfl⟩ := List.mem_map.1 inGoals
    rw [Goal.label_mapVariables]
    exact .goal inFindall
  have pending : (live.state.subgoals rule f).goals ≠ [] := by simpa [State.subgoals] using ranges
  have closing : (rule.searchRoot f).closing = some f := rfl
  cases n with
  | zero => cases foretold
  | succ n =>
    obtain ⟨ends, reports, isPerm, reported, rfl⟩ := Theory.search_solved (selfContained_reachable _ _) plain
      stores fits closing labels pending foretold
    refine ⟨ends, obeys.findallDepth ▸ isPerm, fun e isEnd => ?_, fun name => ?_⟩
    · obtain ⟨report, -, said⟩ := exists_of_forall₂ reported.flip isEnd
      obtain ⟨-, ground, isWeight⟩ := FeatureTemplate.report_eq_ok said
      exact ⟨ground, by rw [isWeight]; rfl⟩
    · have adds := FeatureMap.lookup_merge_merge ordered reports name
      rw [FeatureTemplate.weightsOf_reports reported, ← added] at adds
      exact adds

end

/-- What a search for the goals of a feature does, wherever a machine that runs a query comes to one, if the
goals do not come to call clauses with searches of their own. A search that comes to its end goes on behind
its instruction and changes nothing but the reported features. To the weight of every name, 0 if it was not
reported yet, it adds the weights that the feature has, written as this name, at the ends of all derivations
of its goals within the depth of searches; a name that is the feature's at no end keeps what it had. -/
theorem Machine.search_adds_solutions {m : Machine} {rules : List Rule} {tables : List (List Fact)}
    (compiled : compileRules rules = .ok m.code.program)
    (stores : List.Forall₂ Relation.Stores m.code.relations tables)
    (fits : ∀ fact ∈ tables.flatten, fact.args.length < Text.wordLimit) (q : Query) :
    ∃ start m', m.startQuery q = (.ok start, m') ∧
      ∀ s n rule f target live live', m'.Meets rules start s →
        AtSearch m'.code rules (m'.code.findall n) s rule f target live →
        (∀ other ∈ rules, Reachable rules f.findall other.lhs.label → other.isPlain) →
        line (m'.code.findall n) live.state.pc [.findall target] live = (.ok true, live') →
        live'.state = { live.state with pc := live.state.pc + 1 } ∧ live'.drafts = live.drafts ∧
          ∃ ends, ends.Perm ((live.state.subgoals rule f).solved rules tables.flatten m.code.findallDepth) ∧
            (∀ e ∈ ends, (f.goal.mapVariables (e.value (rule.searchRoot f))).isGround ∧
              (f.weight.value? (e.value (rule.searchRoot f))).isSome) ∧
            ∀ name, live'.features.lookup name =
              match f.weightsFor (rule.searchRoot f) name ends with
              | [] => live.features.lookup name
              | ws => some ((live.features.lookup name).getD 0 + ws.foldl (· + ·) 0) := by
  obtain ⟨start, m', started, isCode, -, represents⟩ := m.startQuery_represents q
  refine ⟨start, m', started, fun s n rule f target live live' meets here plain done => ?_⟩
  have builtIn : ∀ relation ∈ m.code.relations, relation.Fits := fun relation member =>
    Relation.fits (Relation.isBuiltIn_of_stores stores relation member)
  have obeys := m.obeys_ofRules compiled builtIn q
  rw [← isCode] at obeys represents
  have rulesOf : ((Theory.ofRules rules m.code.relations m.code.findallDepth
      m.code.nestingLimit).clauses.map (·.1)) = rules := map_fst_numbered rules
  have depth : m'.code.findallDepth = m.code.findallDepth := by
    rw [isCode]
    rfl
  rw [← rulesOf] at meets here plain
  obtain ⟨root, r, silent, represents⟩ := meets.represents obeys ⟨_, _, _, represents⟩
  have adds := here.adds obeys represents stores fits plain done
  rwa [rulesOf, depth] at adds

/-- The words of the pages that a page links to, each as often as these have it. -/
def wordFeature : FeatureTemplate :=
  ⟨⟨"word", [.var ⟨"W", 2⟩]⟩, .bound ⟨"N", 3⟩,
    [⟨"link", [.var ⟨"X", 0⟩, .var ⟨"Y", 1⟩]⟩,
      ⟨"says", [.var ⟨"Y", 1⟩, .var ⟨"W", 2⟩, .var ⟨"N", 3⟩]⟩]⟩

/-- A page has words. -/
def pageRule : Rule := ⟨⟨"page", [.var ⟨"X", 0⟩]⟩, [], [wordFeature]⟩

/-- A page with two links, and the words behind them. -/
def pageRules : List Rule :=
  pageRule :: ([.ofConstants "link" ["d", "a"], .ofConstants "link" ["d", "b"],
    .ofConstants "says" ["a", "red", "2"], .ofConstants "says" ["b", "red", "3"],
    .ofConstants "says" ["b", "blue", "1"]].map fun goal => ⟨goal, [], []⟩)

/-- Whether the page is one. -/
def askPage : Query := ⟨⟨"page", [.constant "d"]⟩, []⟩

/-- A machine whose searches go two steps deep, with the question installed, and its first stop. -/
def pageMachine : Except Error State × Machine :=
  ((Machine.new ((compileRules pageRules).toOption.getD .empty) []).withFindallDepth 2).startQuery askPage

/-- Where the machine searches for words. -/
def atWords : Except Error Bool × Live :=
  line (pageMachine.2.code.findall 1) 0 (pageMachine.2.code.program.code.toList.take 4)
    { state := { pageMachine.1.toOption.getD .initial with pc := 0, pending := none }
      features := []
      drafts := [] }

/-- A search for words is come to, each of the three words takes two steps, and the search adds them. -/
theorem search_adds_solutions_words : ∃ start live', pageMachine.1 = .ok start ∧
    AtSearch pageMachine.2.code pageRules (pageMachine.2.code.findall 1) start pageRule wordFeature 6
      atWords.2 ∧
    (∀ other ∈ pageRules, Reachable pageRules wordFeature.findall other.lhs.label → other.isPlain) ∧
    line (pageMachine.2.code.findall 1) atWords.2.state.pc [.findall 6] atWords.2 = (.ok true, live') ∧
    live'.state = { atWords.2.state with pc := atWords.2.state.pc + 1 } ∧
    (((atWords.2.state.subgoals pageRule wordFeature).solved pageRules [] 2).map fun e =>
      (wordFeature.goal.mapVariables (e.value (pageRule.searchRoot wordFeature))).text) =
      ["word(red)", "word(red)", "word(blue)"] ∧
    ∃ ends, ends.Perm ((atWords.2.state.subgoals pageRule wordFeature).solved pageRules [] 2) ∧
      ∀ name, live'.features.lookup name =
        match wordFeature.weightsFor (pageRule.searchRoot wordFeature) name ends with
        | [] => atWords.2.features.lookup name
        | ws => some ((atWords.2.features.lookup name).getD 0 + ws.foldl (· + ·) 0) := by
  have compiles : (compileRules pageRules).toOption.isSome = true := by decide +kernel
  have compiled : compileRules pageRules = .ok ((compileRules pageRules).toOption.getD .empty) := by
    cases result : compileRules pageRules with
    | error e => rw [result] at compiles; cases compiles
    | ok program => rfl
  obtain ⟨start, m', started, adds⟩ := @Machine.search_adds_solutions
    ((Machine.new ((compileRules pageRules).toOption.getD .empty) []).withFindallDepth 2) pageRules []
    compiled .nil (by simp) askPage
  have isMachine : pageMachine = (.ok start, m') := started
  -- what the machine stops at, and what it has run of the clause
  have isStart : pageMachine.1.toOption.getD .initial = start := by
    rw [isMachine]
    rfl
  obtain rfl : pageMachine.2 = m' := by rw [isMachine]
  have calls : (pageMachine.1.toOption.getD .initial).pending = some "page/1" := by decide +kernel
  have entries : pageMachine.2.code.program.addresses "page/1" = [0] := by decide +kernel
  have passes : atWords.1.toOption = some true := by decide +kernel
  have finds : (line (pageMachine.2.code.findall 1) atWords.2.state.pc [.findall 6] atWords.2).1.toOption =
    some true := by decide +kernel
  have ok {result : Except Error Bool × Live} (isTrue : result.1.toOption = some true) :
      result = (.ok true, result.2) := by
    rcases result with ⟨e | b, live⟩
    · cases isTrue
    · cases isTrue
      rfl
  have here : AtSearch pageMachine.2.code pageRules (pageMachine.2.code.findall 1) start pageRule wordFeature
      6 atWords.2 := by
    rw [← isStart]
    have clause : (pageRule, 0) ∈ (pageRules.filter (·.lhs.label = "page/1")).zip
        (pageMachine.2.code.program.addresses "page/1") := by
      rw [entries, pageRules, List.filter_cons_of_pos (by decide +kernel), List.zip_cons_cons]
      exact List.mem_cons_self ..
    have placed : pageMachine.2.code.HasAt 0
        (pageMachine.2.code.program.code.toList.take 4 ++ [.findall 6]) := by
      have length : (pageMachine.2.code.program.code.toList.take 4 ++ [Instruction.findall 6]).length =
          5 := by decide +kernel
      rw [Code.HasAt, length]
      decide +kernel
    have stays : ∀ i ∈ pageMachine.2.code.program.code.toList.take 4, i.leaves = false := by decide +kernel
    have earlier : (targets (pageMachine.2.code.program.code.toList.take 4)).length = 0 := by decide +kernel
    have passed : line (pageMachine.2.code.findall 1) 0 (pageMachine.2.code.program.code.toList.take 4)
        { state := { pageMachine.1.toOption.getD .initial with pc := 0, pending := none }
          features := []
          drafts := [] } = (.ok true, atWords.2) := ok passes
    generalize pageMachine.2.code.program.code.toList.take 4 = ran at placed stays earlier passed
    have states : pageRule.features = [] ++ wordFeature :: [] := rfl
    exact .intro calls clause states (List.cons_ne_nil _ _) placed stays earlier passed
  -- the goals of the search call facts only
  have facts : ∀ label, Reachable pageRules wordFeature.findall label → label ∈ ["link/2", "says/3"] := by
    intro label called
    cases called with
    | goal member =>
      have labels : ∀ g ∈ wordFeature.findall, g.label ∈ ["link/2", "says/3"] := by decide +kernel
      exact labels _ member
    | @body rule g _ isRule member =>
      have bodies : ∀ rule ∈ pageRules, rule.rhs = [] := by decide
      rw [bodies rule isRule] at member
      cases member
  have isPlain : ∀ other ∈ pageRules, other.lhs.label ∈ ["link/2", "says/3"] → other.isPlain := by
    decide +kernel
  have plain : ∀ other ∈ pageRules, Reachable pageRules wordFeature.findall other.lhs.label →
      other.isPlain := fun other isRule called => isPlain other isRule (facts _ called)
  have found := ok finds
  generalize (line (pageMachine.2.code.findall 1) atWords.2.state.pc [.findall 6] atWords.2).2 = last at found
  obtain ⟨frame, -, ends, isPerm, -, weights⟩ :=
    adds start 1 pageRule wordFeature 6 atWords.2 last .start here plain found
  have words : (((atWords.2.state.subgoals pageRule wordFeature).solved pageRules [] 2).map fun e =>
      (wordFeature.goal.mapVariables (e.value (pageRule.searchRoot wordFeature))).text) =
      ["word(red)", "word(red)", "word(blue)"] := by decide +kernel
  have first : pageMachine.1 = .ok start := congrArg Prod.fst isMachine
  exact ⟨start, last, first, here, plain, found, frame, words, ends, isPerm, weights⟩

end ProofWalk
