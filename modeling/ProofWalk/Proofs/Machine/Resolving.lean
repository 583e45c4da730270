import ProofWalk.Proofs.Bytecode.Layout
import ProofWalk.Proofs.Logic.Labels
import ProofWalk.Proofs.Machine.Entering
import ProofWalk.Proofs.Machine.Resuming

/-!
# Resolving a call

A state that waits for a call is resolved by a clause or by a tuple. Both unify the arguments that
the caller pushed, the clause after opening a window of its own, and both run on to the next stop.
What they arrive at stands for the resolvent that resolution gives.

## Main results

* `Waiting.byClause` — running a clause is a step of resolution by its rule
* `Waiting.byValues` — resolving by a tuple is a step of resolution by the tuple
-/

namespace ProofWalk

open Substitution Exec

/-! ### Renaming apart -/

theorem order_ofRule (rule : Rule) :
    (Registers.ofRule rule).order = firstOccurrences rule.occurrences := rfl

/-- The variables of the goals that a feature ranges over have registers. -/
theorem Rule.mem_order_of_findall {rule : Rule} {f : FeatureTemplate} (member : f ∈ rule.features)
    {g : Goal} (inFindall : g ∈ f.findall) {v : Variable} (inGoal : v ∈ g.vars) :
    v ∈ (Registers.ofRule rule).order := by
  rw [order_ofRule, mem_firstOccurrences, Rule.occurrences, List.mem_append, List.mem_flatMap]
  refine .inl ⟨g, ?_, inGoal⟩
  simp only [List.mem_cons, List.mem_append, List.mem_flatMap]
  exact .inr (.inl (.inr ⟨f, member, inFindall⟩))

/-- The activation of a rule that is entered: all its variables are new. -/
def Rule.activation (rule : Rule) (offset : Nat) : Activation where
  vars := (Registers.ofRule rule).order
  seen := []
  value := apart offset
  goals := rule.rhs
  closing := none

section Entering

variable {code : Code} {findall : Nat → Exec Unit} {root : Root} {read : Nat → Term}
  {activations : List Activation} {s : State} {r : Resolvent} {silent : List Variable}
  {rule : Rule}

/-- A window of unset registers for a rule whose variables are renamed apart. -/
theorem Waiting.open (waiting : Waiting code root read activations s r silent) (rule : Rule)
    (pc : Nat) :
    Running code read (r.next + serialBound rule.occurrences)
      { s with
        pc
        pending := none
        registers := s.registers ++
          Array.replicate (Registers.ofRule rule).order.length none }
      (rule.activation r.next) activations := by
  set vars := (Registers.ofRule rule).order with isVars
  have nodup : vars.Nodup := nodup_firstOccurrences _
  have values : (rule.activation r.next).unsetValues =
      vars.map fun v => .var (v.shift r.next) := by
    simp [Activation.unsetValues, Activation.unset, Rule.activation, apart, ← isVars]
  have size : (s.registers ++ Array.replicate vars.length none).size =
      s.registers.size + vars.length := by simp
  constructor
  case reads => exact waiting.reads
  case fresh =>
    have old := waiting.fresh
    constructor
    case bounded =>
      intro i inside x isVar
      exact Nat.lt_of_lt_of_le (old.bounded i inside x isVar) (Nat.le_add_right ..)
    -- the variables of the rule are renamed to ones above all that are in use
    case free =>
      intro t member
      rw [List.flatMap_cons, values, List.mem_append, List.mem_map] at member
      obtain ⟨v, known, rfl⟩ | member := member
      · have below := serial_lt_serialBound (mem_firstOccurrences.1 known)
        refine ⟨v.shift r.next, rfl, ?_, fun i inside isVar => ?_⟩
        · change v.serial + r.next < r.next + serialBound rule.occurrences
          change v.serial < serialBound rule.occurrences at below
          omega
        · have taken : v.serial + r.next < r.next := old.bounded i inside _ isVar
          omega
      · obtain ⟨x, isVar, below, absent⟩ := old.free t member
        exact ⟨x, isVar, Nat.lt_of_lt_of_le below (Nat.le_add_right ..), absent⟩
    case nodup =>
      rw [List.flatMap_cons, values, List.nodup_append]
      refine ⟨nodup.map ?_, old.nodup, ?_⟩
      · intro v w equal
        exact Variable.shift_injective r.next (Term.var.inj equal)
      · intro t new u member equal
        subst equal
        obtain ⟨v, -, rfl⟩ := List.mem_map.1 new
        obtain ⟨x, isVar, below, -⟩ := old.free _ member
        obtain rfl := Term.var.inj isVar
        change v.serial + r.next < r.next at below
        omega
  case window =>
    rw [size]
    refine ⟨nodup, Nat.le_add_left .., fun v seen => (by cases seen), fun v free => ?_⟩
    have index := List.idxOf_lt_length_of_mem (Activation.mem_unset.1 free).1
    change vars.idxOf v < vars.length at index
    change (s.registers ++ Array.replicate vars.length none)[
      s.registers.size + vars.length - vars.length + vars.idxOf v]? = some none
    rw [Nat.add_sub_cancel, Array.getElem?_append_right (Nat.le_add_right ..),
      Nat.add_sub_cancel_left, Array.getElem?_replicate, if_pos index]
  case callers =>
    rw [size]
    change Callers _ _ _ _ (s.registers.size + vars.length - vars.length) _ _
    rw [Nat.add_sub_cancel]
    refine waiting.callers.congr fun i inside => ?_
    rw [Array.getElem?_append_left inside]
  case completed => exact waiting.completed
  case failed => exact waiting.failed
  case pending => rfl

/-- The cells of a call stand for its arguments. -/
theorem map_read_range' {g : Goal} {base : Nat} (cells : ∀ k t, g.args[k]? = some t →
    read (base + k) = t) : (List.range' base g.arity).map read = g.args := by
  refine List.ext_getElem? fun k => ?_
  rw [List.getElem?_map]
  by_cases inside : k < g.arity
  · rw [List.getElem?_range' inside, Option.map_some, Nat.one_mul]
    have found : g.args[k]? = some g.args[k] := List.getElem?_eq_getElem inside
    rw [found, cells k _ found]
  · have outside : g.args[k]? = none := List.getElem?_eq_none_iff.2 (Nat.le_of_not_lt inside)
    rw [outside, List.getElem?_eq_none_iff.2 (by simpa using inside), Option.map_none]

/-- Resolution by a rule, in terms of the cells of the call. -/
theorem byRule?_eq {g : Goal} {rest : List Goal} (goals : r.goals = g :: rest)
    (same : rule.lhs.label = g.label) {base : Nat}
    (cells : ∀ k t, g.args[k]? = some t → read (base + k) = t) :
    r.byRule? rule =
      (unifier? (headEquations (apart r.next) read base rule.lhs.args)).map fun θ =>
        (θ, { answer := r.answer.map (·.mapVariable θ)
              goals := rule.rhs.map (·.mapVariables (θ.after (apart r.next))) ++
                rest.map (·.mapVariables θ)
              next := r.next + serialBound rule.occurrences }) := by
  obtain ⟨functor, arity⟩ := Goal.label_eq_iff.1 same
  have length : rule.lhs.args.length = g.arity := arity
  unfold Resolvent.byRule? Resolvent.resolve? headEquations
  rw [goals]
  simp only
  rw [if_pos ⟨functor, (Goal.arity_mapVariables ..).trans arity⟩, length, map_read_range' cells]
  congr 1
  funext θ
  simp [Resolvent.mapVariables, Function.comp_def, Goal.mapVariables_mapVariables]

variable {nested : Root → Resolvent → Except Error FeatureMap} {address number : Nat} {live : Live}

theorem compileHead_stays {regs : Registers} {seen : List Variable} {argument : Int}
    {terms : List Term} : ∀ i ∈ (compileHead regs seen argument terms).1, i.leaves = false := by
  induction terms generalizing seen argument with
  | nil => simp [compileHead]
  | cons t rest ih =>
    cases t with
    | constant c => simpa [compileHead, Instruction.leaves] using ih
    | var v => by_cases met : v ∈ seen <;> simpa [compileHead, met, Instruction.leaves] using ih

theorem placeFeatures_stays {regs : Registers} {bound : List Variable}
    {features : List FeatureTemplate} {plain : List (Option (List Instruction))}
    {addresses : List Nat} (compiled : features.mapM (plainCode regs bound) = .ok plain) :
    ∀ i ∈ placeFeatures plain addresses, i.leaves = false := by
  have pieces : ∀ piece, some piece ∈ plain → ∀ i ∈ piece, i.leaves = false := by
    intro piece member
    obtain ⟨f, -, result⟩ := Except.exists_of_mapM compiled member
    unfold plainCode at result
    split at result
    · obtain ⟨code, compiledCode, equal⟩ := Except.map_eq_ok.1 result
      cases equal
      exact compileFeature_stays compiledCode
    · cases result
  clear compiled
  induction plain generalizing addresses with
  | nil => simp [placeFeatures]
  | cons first rest ih =>
    have others := fun addresses => @ih addresses
      fun piece member => pieces piece (List.mem_cons_of_mem _ member)
    cases first with
    | some piece =>
      intro i member
      rw [placeFeatures, List.mem_append] at member
      exact member.elim (pieces piece (by simp) i) (others addresses i)
    | none =>
      cases addresses with
      | cons address addresses =>
        rintro i (_ | ⟨_, member⟩)
        · rfl
        · exact others addresses i member
      | nil => exact others []

/-- The feature of a clause that states none. -/
private theorem line_clauseFeature (findall : Nat → Exec Unit) (pc : Nat) (lhs : Goal) (live : Live) :
    line findall pc (clauseFeature lhs number) live =
      (.ok true, { live with
        state := { live.state with pc := pc + 5 }
        features := live.features.insert (clauseNumber lhs number).name 1 }) := rfl

/-- The features of a rule are reported once its head is unified. -/
private theorem reportClause (number : Nat) {next pc : Nat} {a : Activation} {callers : List Activation}
    (running : Running code read next live.state a callers) (nests : Nests code findall nested)
    (vars : a.vars = (Registers.ofRule rule).order) {plain : List (Option (List Instruction))}
    {addresses : List Nat}
    (compiled : rule.features.mapM (plainCode (.ofRule rule) a.seen) = .ok plain)
    (ranging : RangingAt code (.ofRule rule) a.seen rule.features addresses) :
    Yields (line findall pc (.clearFeatures ::
        ((if rule.features.isEmpty then clauseFeature rule.lhs number else []) ++
          placeFeatures plain addresses))) live
      (Theory.label nested rule number a.value next)
      fun ok live' found => ok = true ∧
        Continued code next a callers live live' found live.drafts := by
  let cleared : Live :=
    { live with state := { live.state with pc := pc + 1 }, features := [] }
  have started : line findall pc (.clearFeatures ::
        ((if rule.features.isEmpty then clauseFeature rule.lhs number else []) ++
          placeFeatures plain addresses)) live =
      line findall (pc + 1) ((if rule.features.isEmpty then clauseFeature rule.lhs number else []) ++
        placeFeatures plain addresses) cleared :=
    line_step (show step findall .clearFeatures live = (.ok true, { live with features := [] })
      from rfl)
  refine Yields.of_eq started ?_
  have regs : (⟨a.vars⟩ : Registers) = .ofRule rule := by rw [vars]
  rw [← regs] at compiled ranging
  unfold Theory.label
  by_cases none : rule.features.isEmpty
  · rw [if_pos none, if_pos none]
    rw [List.isEmpty_iff.1 none] at compiled
    cases compiled
    exact ⟨true, _, line_clauseFeature findall (pc + 1) rule.lhs cleared, rfl,
      ⟨read, running.setPc (pc + 1 + 5)⟩, ⟨rfl, rfl⟩, rfl, rfl⟩
  · rw [if_neg none, if_neg none, List.nil_append, ← regs]
    have known : ∀ f ∈ rule.features, ∀ g ∈ f.findall, ∀ v ∈ g.vars, v ∈ a.vars :=
      fun f member g inFindall v inGoal => vars ▸ Rule.mem_order_of_findall member inFindall inGoal
    exact Running.reportFeatures cleared nests (running.setPc (pc + 1)) known compiled ranging

theorem Represents.failed (represents : Represents code root s r silent) : s.failed = false := by
  obtain ⟨_, _, waiting⟩ | ⟨_, _, solved⟩ := represents
  · exact waiting.failed
  · exact solved.failed

/-- Running from an address is running through from there. -/
theorem Exec.Yields.runFrom {β : Type} {foretold : Except Error β} {related : Live → β → Prop}
    (yields : Yields (code.runThrough findall live.state.calls.length)
      { state := { live.state with pc := address, pending := none }, features := [], drafts := [] }
      foretold fun _ live' b => related live' b) :
    Yields (code.runFrom findall address) live foretold
      fun found live' b => found = live'.features ∧ related live' b := by
  have run : code.runFrom findall address live = (code.run findall >>= fun _ => reported)
      { state := { live.state with pc := address, pending := none }, features := [], drafts := [] } :=
    rfl
  refine Yields.of_eq run ?_
  cases foretold with
  | error e => exact bind_error_fst yields
  | ok b =>
    obtain ⟨_, live', done, isRelated⟩ := yields
    have ran : code.run findall
        { state := { live.state with pc := address, pending := none }, features := [], drafts := [] } =
        (.ok (), live') := done
    exact ⟨live'.features, live', (bind_ok ran).trans rfl, rfl, isRelated⟩

/-- The variables of a rule's goals have registers. -/
private theorem mem_order {h : Goal} {v : Variable} (occurs : v ∈ h.vars)
    (member : h = rule.lhs ∨ h ∈ rule.rhs) : v ∈ (Registers.ofRule rule).order := by
  rw [order_ofRule, mem_firstOccurrences, Rule.occurrences, List.mem_append, List.mem_flatMap]
  refine .inl ⟨h, ?_, occurs⟩
  simp only [List.mem_cons, List.mem_append]
  exact member.imp_right .inr

theorem State.floor_of_calls {s t : State} (same : s.calls = t.calls) (some : t.calls ≠ []) :
    s.floor = t.floor := by
  unfold State.floor
  rw [same]
  cases last : t.calls.getLast? with
  | none => exact absurd (List.getLast?_eq_none_iff.1 last) some
  | some f => rfl

/-- What a clause does once its head is unified: it reports its features and goes on to the next
stop. -/
private theorem runBody (number : Nat) {next : Nat} {a : Activation} {callers : List Activation}
    {answer : List Term} (running : Running code read next live.state a callers)
    (nests : Nests code findall nested) (vars : a.vars = (Registers.ofRule rule).order)
    (goals : a.goals = rule.rhs) (closing : a.closing = none)
    (rooted : Rooted root answer silent callers) {plain : List (Option (List Instruction))}
    {addresses : List Nat}
    (compiled : rule.features.mapM (plainCode (.ofRule rule) a.seen) = .ok plain)
    (ranging : RangingAt code (.ofRule rule) a.seen rule.features addresses)
    (placed : code.HasAt live.state.pc (.clearFeatures ::
        ((if rule.features.isEmpty then clauseFeature rule.lhs number else []) ++
          placeFeatures plain addresses) ++
      ((compileGoals (.ofRule rule) a.seen rule.rhs).1 ++ [.ret]))) :
    Yields (code.runThrough findall live.state.calls.length) live
      (Theory.label nested rule number a.value next >>=
        (Running.goal answer next (a :: callers)).finish root)
      fun _ live' reported => live'.features = reported ∧ live'.state.floor = live.state.floor ∧
        Represents code root live'.state (Running.goal answer next (a :: callers))
          ((Running.goal answer next (a :: callers)).stillSilent root silent) := by
  have stays : ∀ i ∈ Instruction.clearFeatures ::
      ((if rule.features.isEmpty then clauseFeature rule.lhs number else []) ++
        placeFeatures plain addresses), i.leaves = false := by
    rintro i (_ | ⟨_, member⟩)
    · rfl
    · obtain own | placedThere := List.mem_append.1 member
      · split at own
        · simp only [clauseFeature, List.mem_cons, List.not_mem_nil, or_false] at own
          obtain rfl | rfl | rfl | rfl | rfl := own <;> rfl
        · cases own
      · exact placeFeatures_stays compiled i placedThere
  -- the code of the features is a line, behind which the goals are called
  refine Yields.runThrough running.isStopped placed.left stays
    (reportClause number running nests vars compiled ranging) fun live' found continued => ?_
  obtain ⟨⟨read', running'⟩, ⟨calls, -⟩, features, -⟩ := continued
  refine ⟨running'.isStopped, fun place => ?_⟩
  have continues : Continues code live'.state.pc a := by
    refine ⟨fun h member v occurs => ?_, [], by rw [closing]; rfl, ?_⟩
    · exact vars ▸ mem_order occurs (.inr (goals ▸ member))
    · have regs : (⟨a.vars⟩ : Registers) = .ofRule rule := by rw [vars]
      rw [place, goals, regs]
      exact placed.right
  have resumed := running'.resume findall continues (rooted.cons closing)
    (congrArg List.length calls).symm
  have some := running.callers.frames_ne_nil rooted.ne_nil
  rwa [features, State.floor_of_calls calls some] at resumed

/-- A clause that is entered opens its window, and the code of its head solves the equations between its
arguments and those of the call. -/
theorem Waiting.enter (waiting : Waiting code root read activations s r silent)
    (findall : Nat → Exec Unit) (address : Nat) {g : Goal} {rest : List Goal} (goals : r.goals = g :: rest)
    (same : rule.lhs.label = g.label) :
    ∃ opened : Live,
      line findall address
          (.comment rule.text :: .allocate (Registers.ofRule rule).order.length :: rule.headCode)
          { state := { s with pc := address, pending := none }, features := [], drafts := [] } =
        line findall (address + 1 + 1) rule.headCode opened ∧
      opened.state.calls = s.calls ∧ opened.features = [] ∧ opened.drafts = [] ∧
      Running.Solves code (r.next + serialBound rule.occurrences) read (rule.activation r.next) activations
        rule.met opened (line findall (address + 1 + 1) rule.headCode opened)
        (unifier? (headEquations (apart r.next) read (s.heap.size - g.arity) rule.lhs.args)) := by
  obtain ⟨g', isGoals, -, inside, -⟩ := waiting.goal
  obtain ⟨rfl, rfl⟩ : g = g' ∧ rest = _ := List.cons.inj (goals.symm.trans isGoals)
  obtain ⟨-, arity⟩ := Goal.label_eq_iff.1 same
  let opened : Live :=
    { state := { s with
        pc := address + 1 + 1
        pending := none
        registers := s.registers ++ Array.replicate (Registers.ofRule rule).order.length none }
      features := []
      drafts := [] }
  have running : Running code read (r.next + serialBound rule.occurrences) opened.state
    (rule.activation r.next) activations := waiting.open rule (address + 1 + 1)
  refine ⟨opened, rfl, rfl, rfl, rfl, ?_⟩
  refine running.unifyHead findall (address + 1 + 1) opened ?_ ?_ fun v member =>
    mem_order (Goal.mem_vars.2 member) (.inl rfl)
  · rw [arity]
    change _ = _ - (s.heap.size : Int)
    omega
  · change _ + rule.lhs.arity ≤ s.heap.size
    omega

/-- Running a clause for a waiting call resolves it by the clause's rule: a clash where there is no
unifier, and otherwise the features that the rule reports on the way to the next stop. -/
theorem Waiting.byClause (waiting : Waiting code root read activations s r silent)
    (nests : Nests code findall nested) (placed : ClauseAt code address rule number) {g : Goal}
    {rest : List Goal} (goals : r.goals = g :: rest) (same : rule.lhs.label = g.label)
    (isState : live.state = s) :
    match r.byRule? rule with
    | none => ∃ features live', code.runFrom findall address live = (.ok features, live') ∧
        live'.state.failed = true
    | some (θ, child) => Yields (code.runFrom findall address) live
        (Theory.label nested rule number (θ.after (apart r.next)) child.next >>= child.finish root)
        fun found live' reported => found = reported ∧ live'.state.floor = s.floor ∧
          Represents code root live'.state child (child.stillSilent root silent) := by
  subst isState
  obtain ⟨g', isGoals, -, -, cells⟩ := waiting.goal
  obtain ⟨rfl, rfl⟩ : g = g' ∧ rest = _ := List.cons.inj (goals.symm.trans isGoals)
  obtain ⟨plain, addresses, compiled, ranging, code'⟩ := placed.placed
  set regs := Registers.ofRule rule
  set head := compileHead regs [] (-(rule.lhs.arity : Int)) rule.lhs.args
  let started : Live :=
    { state := { live.state with pc := address, pending := none }, features := [], drafts := [] }
  obtain ⟨opened, opening, openedCalls, -, -, solves⟩ := waiting.enter findall address goals same
  change line findall address (.comment rule.text :: .allocate regs.order.length :: head.1) started =
    line findall (address + 1 + 1) head.1 opened at opening
  change Running.Solves _ _ _ _ _ head.2 opened (line findall (address + 1 + 1) head.1 opened) _ at solves
  have whole : code.HasAt address
      ((.comment rule.text :: .allocate regs.order.length :: head.1) ++ _) := code'
  have front := whole.left
  have stays : ∀ i ∈ Instruction.comment rule.text :: .allocate regs.order.length :: head.1,
      i.leaves = false := by
    rintro i (_ | ⟨_, _ | ⟨_, member⟩⟩)
    · rfl
    · rfl
    · exact compileHead_stays i member
  have notStopped : started.state.isStopped = false := by
    simp [started, State.isStopped, waiting.completed, waiting.failed]
  -- the machine clashes in the head just if the equations of resolution have no solution
  rw [byRule?_eq goals same cells]
  rcases result : line findall (address + 1 + 1) head.1 opened with ⟨ok, last⟩
  rw [result] at solves opening
  cases solved : unifier? (headEquations (apart r.next) read (live.state.heap.size - g.arity)
      rule.lhs.args) with
  | none =>
    rw [solved] at solves
    obtain ⟨rfl, failed⟩ := solves
    have run : code.runThrough findall live.state.calls.length started = (.ok (), last) :=
      runThrough_stop notStopped ((Code.runSegment_line front stays).trans (by rw [opening]))
    have ran : code.run findall started = (.ok (), last) := run
    exact ⟨_, _, (bind_ok ran).trans rfl, failed⟩
  | some θ =>
    rw [solved] at solves
    obtain ⟨rfl, shape, running⟩ := solves
    -- under the solution it goes on with the body
    have behind := whole.right
    have atStart : started.state.pc = address := rfl
    have place := line_pc atStart opening
    rw [← List.append_assoc, ← List.cons_append] at behind
    have body := runBody number running nests rfl rfl rfl (waiting.rooted.under θ)
      compiled ranging (by rw [place]; exact behind)
    have child : Running.goal (r.answer.map (·.mapVariable θ)) (r.next + serialBound rule.occurrences)
        ({ (rule.activation r.next).under θ with seen := head.2 } ::
          activations.map (·.under θ)) =
        { answer := r.answer.map (·.mapVariable θ)
          goals := rule.rhs.map (·.mapVariables (θ.after (apart r.next))) ++
            (activations.flatMap (·.resolved)).map (·.mapVariables θ)
          next := r.next + serialBound rule.occurrences } := by
      rw [Running.goal, List.flatMap_cons, List.flatMap_map, List.map_flatMap]
      simp only [Activation.resolved_under]
      rfl
    rw [Option.map_some]
    simp only
    rw [← child]
    have calls : last.state.calls = live.state.calls := shape.calls.trans openedCalls
    have some : live.state.calls ≠ [] := waiting.callers.frames_ne_nil waiting.rooted.ne_nil
    rw [calls, State.floor_of_calls calls some] at body
    refine Yields.imp (Yields.runFrom
      (Yields.of_eq (runThrough_line notStopped running.isStopped front stays opening) body)) ?_
    rintro found live' reported ⟨rfl, rfl, floor, represents⟩
    exact ⟨rfl, floor, represents⟩

end Entering

/-! ### Tuples -/

section Tuples

variable {code : Code} {findall : Nat → Exec Unit} {root : Root} {read : Nat → Term}
  {activations : List Activation} {s : State} {r : Resolvent} {silent : List Variable} {live : Live}
  {values : List String}

theorem headEquations_constants (value : Substitution) (read : Nat → Term) (base : Nat)
    (values : List String) :
    headEquations value read base (values.map .constant) =
      (values.map .constant).zip ((List.range' base values.length).map read) := by
  rw [headEquations, List.map_map, List.length_map]
  rfl

/-- Unifying consecutive cells with constants. -/
theorem Running.unifyTuple {next base : Nat} {a : Activation} {callers : List Activation}
    (running : Running code read next s a callers) (inside : base + values.length ≤ s.heap.size) :
    match unifier? (headEquations .var read base (values.map .constant)) with
    | none => ∀ live : Live, live.state.heap = s.heap →
        ∃ live', Code.unifyFrom base values live = (.ok false, live')
    | some θ => ∃ heap, heap.size = s.heap.size ∧
        (∀ live : Live, live.state.heap = s.heap → Code.unifyFrom base values live =
          (.ok true, { live with state := { live.state with heap } })) ∧
        Running code (fun i => (read i).mapVariable θ) next { s with heap } (a.under θ)
          (callers.map (·.under θ)) := by
  induction values generalizing a read callers s base with
  | nil =>
    refine ⟨s.heap, rfl, fun live same => ?_, by simpa using running⟩
    rw [← same]
    rfl
  | cons c values ih =>
    rw [List.length_cons] at inside
    have first := running.unify (running.reads.unifyConstant (i := base) (by omega) c)
      (fun x isVar => by cases isVar)
      fun x isVar => running.fresh.known (by omega) isVar
    rw [List.map_cons, headEquations_cons, unifier?_cons, Term.mapVariable_constant]
    cases solved : (Term.constant c).unifier? (read base) with
    | none =>
      rw [solved] at first
      intro live same
      exact ⟨live, by rw [Code.unifyFrom, bind_ok (first live same)]; rfl⟩
    | some δ =>
      rw [solved] at first
      obtain ⟨heap, size, done, running'⟩ := first
      -- the rest of the tuple is unified under the solution of its first equation
      have others := ih running' (show base + 1 + values.length ≤ heap.size by omega)
      have constants : headEquations (δ.after .var) (fun i => (read i).mapVariable δ) (base + 1)
          (values.map .constant) = headEquations .var (fun i => (read i).mapVariable δ) (base + 1)
          (values.map .constant) := by
        rw [headEquations_constants, headEquations_constants]
      rw [Option.bind_some, substituted_headEquations, constants]
      cases rested : unifier? (headEquations .var (fun i => (read i).mapVariable δ) (base + 1)
          (values.map .constant)) with
      | none =>
        rw [rested] at others
        intro live same
        obtain ⟨live', clash⟩ := others { live with state := { live.state with heap } } rfl
        exact ⟨live', by rw [Code.unifyFrom, bind_ok (done live same)]; exact clash⟩
      | some θ =>
        rw [rested] at others
        obtain ⟨heap', size', doneRest, runningRest⟩ := others
        refine ⟨heap', size'.trans size, fun live same => ?_, ?_⟩
        · rw [Code.unifyFrom, bind_ok (done live same)]
          exact doneRest { live with state := { live.state with heap } } rfl
        · simpa [Term.mapVariable_mapVariable, Activation.under, after_assoc, Function.comp_def]
            using runningRest

/-- Nothing runs above the callers of a waiting state. -/
private def idle : Activation where
  vars := []
  seen := []
  value := .var
  goals := []
  closing := none

private theorem Waiting.idle (waiting : Waiting code root read activations s r silent) :
    Running code read r.next { s with pending := none } ProofWalk.idle activations where
  reads := waiting.reads
  fresh := waiting.fresh.perm (.refl _)
  window := ⟨List.nodup_nil, Nat.zero_le _, fun v seen => (by cases seen), fun v free => (by cases free)⟩
  callers := waiting.callers
  completed := waiting.completed
  failed := waiting.failed
  pending := rfl

/-- Resolving a waiting call by a tuple is a step of resolution by the tuple. -/
theorem Waiting.byValues (waiting : Waiting code root read activations s r silent)
    (findall : Nat → Exec Unit) {g : Goal} {rest : List Goal} (goals : r.goals = g :: rest)
    (fewer : values.length ≤ g.arity) (isState : live.state = s) :
    match r.byValues? values with
    | none => ∃ live', code.resolveWith findall values live = (.ok false, live')
    | some child => Yields (code.resolveWith findall values) live (child.finish root live.features)
        fun alive live' reported => alive = true ∧ live'.features = reported ∧
          live'.state.floor = s.floor ∧
          Represents code root live'.state child (child.stillSilent root silent) := by
  subst isState
  obtain ⟨g', isGoals, -, inside, cells⟩ := waiting.goal
  obtain ⟨rfl, rfl⟩ : g = g' ∧ rest = _ := List.cons.inj (goals.symm.trans isGoals)
  set base := live.state.heap.size - values.length with isBase
  -- the last arguments of the goal lie in the last cells of the heap
  have last : (List.range' base values.length).map read = g.args.drop (g.arity - values.length) := by
    have all := map_read_range' cells
    rw [← all, ← List.map_drop, List.drop_range']
    congr 2 <;> omega
  have equations : headEquations .var read base (values.map .constant) =
      (values.map .constant).zip (g.args.drop (g.arity - values.length)) := by
    rw [headEquations_constants, last]
  have tuple := waiting.idle.unifyTuple
    (show base + values.length ≤ live.state.heap.size by omega)
  have resolve : code.resolveWith findall values live = (do
      if ← Code.unifyFrom base values then
        update fun s => { s with pending := none }
        let _ ← return?
        code.run findall
        let s ← state
        pure !s.failed
      else
        update fun s => { s with failed := true }
        pure false : Exec Bool) live := by
    rw [Code.resolveWith, state_bind, if_neg (by omega)]
  rw [equations] at tuple
  unfold Resolvent.byValues?
  rw [goals]
  simp only
  cases solved : unifier? ((values.map Term.constant).zip
      (g.args.drop (g.arity - values.length))) with
  | none =>
    rw [solved] at tuple
    obtain ⟨live', clash⟩ := tuple live rfl
    exact ⟨_, by rw [resolve, bind_ok clash]; rfl⟩
  | some θ =>
    rw [solved] at tuple
    obtain ⟨heap, size, done, running⟩ := tuple
    -- with the tuple unified, the machine returns to the caller and runs on from there
    let unified : Live := { live with state := { live.state with heap, pending := none } }
    obtain ⟨b, callers, rfl⟩ : ∃ b callers, activations = b :: callers := by
      cases activations with
      | nil => exact waiting.rooted.elim
      | cons b callers => exact ⟨b, callers, rfl⟩
    obtain ⟨f, frames, live', calls, returns, callsRest, features, floor, continues, running'⟩ :=
      running.return_caller unified
    have resumed := running'.resume findall continues (waiting.rooted.under θ) rfl
    have child : Running.goal (r.answer.map (·.mapVariable θ)) r.next
        (b.under θ :: callers.map (·.under θ)) =
        Resolvent.mapVariables θ
          { answer := r.answer, goals := (b :: callers).flatMap (·.resolved), next := r.next } :=
      Running.goal_under θ r.answer r.next (b :: callers)
    rw [Option.map_some]
    simp only
    rw [← child]
    have floors : live'.state.floor = live.state.floor := by
      rw [floor]
      exact State.floor_of_calls (s := unified.state) rfl
        (waiting.callers.frames_ne_nil waiting.rooted.ne_nil)
    rw [features, floors] at resumed
    have start : code.resolveWith findall values live = (do
        code.run findall
        let s ← state
        pure !s.failed : Exec Bool) live' := by
      rw [resolve, bind_ok (done live rfl), if_pos rfl, update_bind]
      have returned : return? unified = (.ok true, live') := returns
      exact bind_ok returned
    refine Yields.of_eq start ?_
    cases foretold : (Running.goal (r.answer.map (·.mapVariable θ)) r.next
        (b.under θ :: callers.map (·.under θ))).finish root live.features with
    | error e =>
      rw [foretold] at resumed
      exact bind_error_fst (x := code.run findall) resumed
    | ok reported =>
      rw [foretold] at resumed
      obtain ⟨_, last, done, reports, floor, represents⟩ := resumed
      have ran : code.run findall live' = (.ok (), last) := done
      refine ⟨true, last, ?_, rfl, reports, floor, represents⟩
      rw [bind_ok ran, state_bind, represents.failed]
      rfl

end Tuples

end ProofWalk
