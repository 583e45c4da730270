import ProofWalk.Proofs.Machine.Reporting

/-!
# Going on to the next stop

A state that has resolved a call goes on through the code behind it. It pushes the arguments of the
next goal and stops at its call, or it comes to a return and goes on with its caller, until the last
one has returned. The callers' windows lie one under the other, so that a return uncovers a window
that is as it was left.

## Main definitions

* `Represents` — a state at a stop stands for a resolvent

## Main results

* `Running.resume` — running on ends at the stop that the pending goals foretell
-/

namespace ProofWalk

open Exec

/-- The end of the lowest window. -/
def State.floor (s : State) : Nat :=
  match s.calls.getLast? with
  | some f => f.registerTop
  | none => s.registers.size

/-- The lowest activation is that of the root: its variables stand for the answer, and those in
`silent` have no register yet. Only the root has a closing feature. -/
def Rooted (root : Root) (answer : List Term) (silent : List Variable) : List Activation → Prop
  | [] => False
  | [a] => a.vars = root.vars ∧ a.closing = root.closing ∧ a.vars.map a.value = answer ∧
      a.unset = silent
  | a :: b :: rest => a.closing = none ∧ Rooted root answer silent (b :: rest)

/-- A state that waits for the leftmost goal of a resolvent to be resolved. -/
structure Waiting (code : Code) (root : Root) (read : Nat → Term) (activations : List Activation)
    (s : State) (r : Resolvent) (silent : List Variable) : Prop where
  reads : Reads s.heap read
  fresh : Fresh read s.heap.size r.next activations
  callers : Callers code s.registers s.heap.size read s.registers.size s.calls activations
  rooted : Rooted root r.answer silent activations
  completed : s.completed = false
  failed : s.failed = false
  goal : ∃ g, r.goals = g :: activations.flatMap (·.resolved) ∧ s.pending = some g.label ∧
    g.arity ≤ s.heap.size ∧ ∀ k t, g.args[k]? = some t → read (s.heap.size - g.arity + k) = t

/-- A state that has proved all goals. -/
structure Solved (code : Code) (root : Root) (read : Nat → Term) (a : Activation) (s : State)
    (r : Resolvent) (silent : List Variable) : Prop where
  reads : Reads s.heap read
  fresh : Fresh read s.heap.size r.next [a]
  window : Window s.registers s.heap.size read s.registers.size a
  rooted : Rooted root r.answer silent [a]
  goals : r.goals = []
  completed : s.completed = true
  failed : s.failed = false
  pending : s.pending = none
  calls : s.calls = []

/-- A state at a stop stands for a resolvent. -/
def Represents (code : Code) (root : Root) (s : State) (r : Resolvent) (silent : List Variable) :
    Prop :=
  (∃ read activations, Waiting code root read activations s r silent) ∨
    ∃ read a, Solved code root read a s r silent

section Stops

variable {code : Code} {findall : Nat → Exec Unit} {fuel : Nat} {live live' : Live}

theorem runThrough_stop (running : live.state.isStopped = false)
    (segment : code.runSegment findall live.state.pc live = (.ok false, live')) :
    code.runThrough findall fuel live = (.ok (), live') := by
  cases fuel <;> rw [Code.runThrough, state_bind, running, Bool.not_false, if_pos rfl,
    bind_ok segment] <;> rfl

theorem runThrough_return (running : live.state.isStopped = false)
    (segment : code.runSegment findall live.state.pc live = (.ok true, live')) :
    code.runThrough findall (fuel + 1) live = code.runThrough findall fuel live' := by
  rw [Code.runThrough, state_bind, running, Bool.not_false, if_pos rfl, bind_ok segment, if_pos rfl]

theorem runThrough_error {e : Error} (running : live.state.isStopped = false)
    (segment : (code.runSegment findall live.state.pc live).1 = .error e) :
    (code.runThrough findall fuel live).1 = .error e := by
  cases fuel <;> rw [Code.runThrough, state_bind, running, Bool.not_false, if_pos rfl] <;>
    exact bind_error_fst segment

/-- A line at the front of a run. -/
theorem runThrough_line {instructions : List Instruction} (running : live.state.isStopped = false)
    (running' : live'.state.isStopped = false)
    (placed : code.HasAt live.state.pc instructions)
    (stays : ∀ i ∈ instructions, i.leaves = false)
    (done : line findall live.state.pc instructions live = (.ok true, live')) :
    code.runThrough findall fuel live = code.runThrough findall fuel live' := by
  have segment : code.runSegment findall live.state.pc live =
      code.runSegment findall live'.state.pc live' := by
    rw [Code.runSegment_line placed stays, done, line_pc rfl done]
  cases fuel <;> rw [Code.runThrough, state_bind, running, state_bind, running', Bool.not_false,
    if_pos rfl, if_pos rfl] <;> exact Exec.bind_congr segment

theorem Exec.Yields.runThrough {β δ : Type} {instructions : List Instruction}
    {foretold : Except Error β} {next : β → Except Error δ} {related : Live → β → Prop}
    {related' : Unit → Live → δ → Prop} (running : live.state.isStopped = false)
    (placed : code.HasAt live.state.pc instructions)
    (stays : ∀ i ∈ instructions, i.leaves = false)
    (first : Yields (line findall live.state.pc instructions) live foretold
      fun ok live' b => ok = true ∧ related live' b)
    (rest : ∀ live' b, related live' b → live'.state.isStopped = false ∧
      (live'.state.pc = live.state.pc + instructions.length →
        Yields (code.runThrough findall fuel) live' (next b) related')) :
    Yields (code.runThrough findall fuel) live (foretold >>= next) related' := by
  cases foretold with
  | error e =>
    have failed : line findall live.state.pc instructions live =
        (.error e, (line findall live.state.pc instructions live).2) := Prod.ext first rfl
    refine runThrough_error running ?_
    rw [Code.runSegment_line placed stays, failed]
  | ok b =>
    obtain ⟨ok, live', done, rfl, isRelated⟩ := first
    obtain ⟨running', result⟩ := rest live' b isRelated
    exact Yields.of_eq (runThrough_line running running' placed stays done)
      (result (line_pc rfl done))

end Stops

/-! ### The root -/

section Roots

variable {root : Root} {answer : List Term} {silent : List Variable} {a b : Activation}
  {callers : List Activation}

theorem Rooted.ne_nil {activations : List Activation} (rooted : Rooted root answer silent activations) :
    activations ≠ [] := by
  rintro rfl
  exact rooted

/-- The activation of the root. -/
theorem Rooted.last {activations : List Activation} (rooted : Rooted root answer silent activations) :
    ∃ b ∈ activations, b.vars = root.vars ∧ b.vars.map b.value = answer ∧ b.unset = silent := by
  induction activations with
  | nil => exact rooted.elim
  | cons a rest ih =>
    cases rest with
    | nil => exact ⟨a, by simp, rooted.1, rooted.2.2⟩
    | cons b rest =>
      obtain ⟨last, member, found⟩ := ih rooted.2
      exact ⟨last, List.mem_cons_of_mem a member, found⟩

/-- A substitution goes through to the answer. -/
theorem Rooted.under {activations : List Activation} (δ : Substitution)
    (rooted : Rooted root answer silent activations) :
    Rooted root (answer.map (·.mapVariable δ)) silent (activations.map (·.under δ)) := by
  induction activations with
  | nil => exact rooted.elim
  | cons a rest ih =>
    cases rest with
    | nil =>
      obtain ⟨vars, closing, rfl, unset⟩ := rooted
      exact ⟨vars, closing, by rw [List.map_map]; rfl, unset⟩
    | cons b rest => exact ⟨rooted.1, ih rooted.2⟩

/-- An activation that is not the root's. -/
theorem Rooted.cons {activations : List Activation} (rooted : Rooted root answer silent activations)
    (closing : a.closing = none) : Rooted root answer silent (a :: activations) := by
  cases activations with
  | nil => exact rooted.elim
  | cons b rest => exact ⟨closing, rooted⟩

/-- Pushing the arguments of a goal sets the registers of those variables of the root that occur in
it, and no others. -/
theorem Rooted.call {read : Nat → Term} {size next : Nat} {registers : Array (Option Nat)} {top : Nat}
    {terms : List Term} {seen : List Variable} {r : Resolvent}
    (rooted : Rooted root r.answer silent (a :: callers)) (rest : List Goal)
    (fresh : Fresh read size next (a :: callers)) (window : Window registers size read top a)
    (known : ∀ v, .var v ∈ terms → v ∈ a.vars)
    (met : ∀ v, v ∈ seen ↔ v ∈ a.seen ∨ .var v ∈ terms) :
    Rooted root r.answer
      (silent.filter fun v => r.value root v ∉ terms.map (·.mapVariable a.value))
      ({ a with seen, goals := rest } :: callers) := by
  have nodup := List.nodup_append.1 (List.flatMap_cons ▸ fresh.nodup)
  -- an argument is not what a variable without a register stands for
  have occurs : ∀ {t : Term}, t ∈ (a :: callers).flatMap (·.unsetValues) →
      t ∈ terms.map (·.mapVariable a.value) → ∃ w ∈ a.unset, .var w ∈ terms ∧ a.value w = t := by
    intro t free member
    obtain ⟨x, rfl, -, absent⟩ := fresh.free t free
    obtain ⟨u, argument, equal⟩ := List.mem_map.1 member
    cases u with
    | constant c => cases equal
    | var w =>
      refine ⟨w, Activation.mem_unset.2 ⟨known w argument, fun seen => ?_⟩, argument, equal⟩
      obtain ⟨-, cell, inside, -, stands⟩ := window.set w seen
      exact absent cell inside (stands.trans equal)
  have value : ∀ {b : Activation}, b.vars = root.vars → b.vars.map b.value = r.answer →
      ∀ v ∈ b.unset, r.value root v = b.value v := fun vars answer v free =>
    Resolvent.value_eq (vars ▸ answer) (vars ▸ (Activation.mem_unset.1 free).1)
  cases callers with
  | nil =>
    obtain ⟨vars, closing, answer, unset⟩ := rooted
    refine ⟨vars, closing, answer, ?_⟩
    rw [← unset]
    unfold Activation.unset
    rw [List.filter_filter]
    refine List.filter_congr fun v inVars => ?_
    by_cases old : v ∈ a.seen
    · simp [met, old]
    · have free : v ∈ a.unset := Activation.mem_unset.2 ⟨inVars, old⟩
      have same : .var v ∈ terms ↔ r.value root v ∈ terms.map (·.mapVariable a.value) := by
        rw [value vars answer v free]
        refine ⟨fun argument => List.mem_map.2 ⟨_, argument, rfl⟩, fun argument => ?_⟩
        obtain ⟨w, unmet, inTerms, equal⟩ :=
          occurs (List.mem_flatMap.2 ⟨a, by simp, List.mem_map.2 ⟨v, free, rfl⟩⟩) argument
        rwa [← List.inj_on_of_nodup_map nodup.1 unmet free equal]
      simp only [met, old, false_or, same, not_false_eq_true, decide_true, Bool.and_true]
  | cons c rest =>
    obtain ⟨b, member, vars, answer, unset⟩ := rooted.2.last
    refine ⟨rooted.1, ?_⟩
    have kept : (silent.filter fun v => r.value root v ∉ terms.map (·.mapVariable a.value)) =
        silent := by
      rw [List.filter_eq_self]
      intro v isSilent
      rw [← unset] at isSilent
      rw [decide_eq_true_eq, value vars answer v isSilent]
      intro argument
      have below : b.value v ∈ (c :: rest).flatMap (·.unsetValues) :=
        List.mem_flatMap.2 ⟨b, member, List.mem_map.2 ⟨v, isSilent, rfl⟩⟩
      obtain ⟨w, unmet, -, equal⟩ :=
        occurs (List.flatMap_cons ▸ List.mem_append_right _ below) argument
      exact nodup.2.2 _ (List.mem_map.2 ⟨w, unmet, rfl⟩) _ below equal
    rw [kept]
    exact rooted.2

end Roots

/-! ### Straight code -/

theorem compileArgs_stays {regs : Registers} {seen : List Variable} {terms : List Term} :
    ∀ i ∈ (compileArgs regs seen terms).1, i.leaves = false := by
  induction terms generalizing seen with
  | nil => simp [compileArgs]
  | cons t rest ih =>
    cases t with
    | constant c => simpa [compileArgs, Instruction.leaves] using ih
    | var v => by_cases met : v ∈ seen <;> simpa [compileArgs, met, Instruction.leaves] using ih

theorem compileFeature_stays {regs : Registers} {bound : List Variable} {f : FeatureTemplate}
    {instructions : List Instruction} (compiled : compileFeature regs bound f = .ok instructions) :
    ∀ i ∈ instructions, i.leaves = false := by
  obtain ⟨args, compiledArgs, others⟩ := Except.bind_eq_ok.1 compiled
  obtain ⟨weight, compiledWeight, equal⟩ := Except.bind_eq_ok.1 others
  cases equal
  have argsStay : ∀ i ∈ args, i.leaves = false := by
    intro i member
    obtain ⟨t, -, result⟩ := Except.exists_of_mapM compiledArgs member
    cases t with
    | constant c => cases result; rfl
    | var v =>
      rw [compileFeatureArg] at result
      split at result <;> cases result
      rfl
  have weightStays : ∀ i ∈ weight, i.leaves = false := by
    cases h : f.weight with
    | unit => rw [h] at compiledWeight; cases compiledWeight; simp
    | fixed w =>
      rw [h] at compiledWeight
      cases compiledWeight
      simp [Instruction.leaves]
    | bound v =>
      rw [h, compileWeight] at compiledWeight
      split at compiledWeight <;> cases compiledWeight
      simp [Instruction.leaves]
  simp only [List.mem_cons, List.mem_append, List.not_mem_nil, or_false]
  rintro i (rfl | (member | member) | rfl)
  · rfl
  · exact argsStay i member
  · exact weightStays i member
  · rfl

/-- A feature says the same wherever the variables that it may mention stand for the same. -/
theorem FeatureTemplate.report_congr (f : FeatureTemplate) {regs : Registers} {bound : List Variable}
    {instructions : List Instruction} (compiled : compileFeature regs bound f = .ok instructions)
    {value value' : Substitution} (same : ∀ v ∈ bound, value v = value' v) :
    f.report regs value = f.report regs value' := by
  obtain ⟨args, compiledArgs, others⟩ := Except.bind_eq_ok.1 compiled
  obtain ⟨weight, compiledWeight, -⟩ := Except.bind_eq_ok.1 others
  have sameArgs : f.goal.args.mapM (regs.argument value) = f.goal.args.mapM (regs.argument value') := by
    refine Except.mapM_congr (List.forall₂_same.2 fun t isArg => ?_)
    obtain ⟨i, -, made⟩ := exists_of_forall₂ (Except.forall₂_of_mapM compiledArgs).flip isArg
    cases t with
    | constant c => rfl
    | var v =>
      rw [compileFeatureArg] at made
      split at made
      case isFalse => cases made
      case isTrue known => rw [Registers.argument, Registers.argument, same v known]
  have sameWeight : f.weight.number value = f.weight.number value' := by
    cases h : f.weight with
    | unit => rfl
    | fixed w => rfl
    | bound v =>
      rw [h, compileWeight] at compiledWeight
      split at compiledWeight
      case isFalse => cases compiledWeight
      case isTrue known => rw [FeatureWeight.number, FeatureWeight.number, same v known]
  rw [FeatureTemplate.report, FeatureTemplate.report, sameArgs, sameWeight]

/-! ### Going on -/

namespace Running

variable {code : Code} {findall : Nat → Exec Unit} {read : Nat → Term} {next fuel : Nat}
  {a : Activation} {callers : List Activation} {live : Live} {root : Root} {answer : List Term}
  {silent : List Variable}

theorem isStopped (running : Running code read next live.state a callers) :
    live.state.isStopped = false := by
  simp [State.isStopped, running.completed, running.failed, running.pending]

/-- The resolvent that a running state will stop for. -/
def goal (answer : List Term) (next : Nat) (activations : List Activation) : Resolvent :=
  { answer, goals := activations.flatMap (·.resolved), next }

theorem goal_under (θ : Substitution) (answer : List Term) (next : Nat)
    (activations : List Activation) :
    goal (answer.map (·.mapVariable θ)) next (activations.map (·.under θ)) =
      (goal answer next activations).mapVariables θ := by
  rw [goal, goal, Resolvent.mapVariables, List.flatMap_map, List.map_flatMap]
  simp only [Activation.resolved_under]

/-- Code that still has a goal to call stops at its call. -/
private theorem stopAtCall (findall : Nat → Exec Unit)
    (running : Running code read next live.state a callers)
    (continues : Continues code live.state.pc a)
    (rooted : Rooted root answer silent (a :: callers)) {g : Goal} {rest : List Goal}
    (goals : a.goals = g :: rest) :
    ∃ live', code.runSegment findall live.state.pc live = (.ok false, live') ∧
      live'.features = live.features ∧ live'.state.floor = live.state.floor ∧
      Represents code root live'.state (goal answer next (a :: callers))
        ((goal answer next (a :: callers)).stillSilent root silent) := by
  obtain ⟨known, ending, compiledEnding, placed⟩ := continues
  rw [goals, compileGoals] at placed compiledEnding
  rw [goals] at known
  simp only [List.append_assoc, List.cons_append] at placed
  have knownArgs : ∀ v, .var v ∈ g.args → v ∈ a.vars :=
    fun v member => known g (by simp) v (Goal.mem_vars.2 member)
  obtain ⟨read', live', done, running', pushed⟩ :=
    running.pushArgs findall live.state.pc live knownArgs
  have place := line_pc rfl done
  -- behind the arguments the call parks the activation in a frame of its own
  let frame : Frame :=
    { heapTop := live'.state.heap.size
      registerTop := live'.state.registers.size
      resume := live'.state.pc + 1 }
  let parked : Live :=
    { live' with state := { live'.state with
      calls := frame :: live'.state.calls
      pending := some g.label } }
  have stops : code.runSegment findall live.state.pc live = (.ok false, parked) := by
    rw [Code.runSegment_line placed.left compileArgs_stays, done]
    simp only
    rw [Code.runSegment_call placed.right.fetch]
    rfl
  have size : live'.state.heap.size = live.state.heap.size + g.arity := by
    rw [pushed.size, List.length_map]
    rfl
  refine ⟨parked, stops, pushed.features, ?_, .inl ⟨read',
    { a with seen := (compileArgs ⟨a.vars⟩ a.seen g.args).2, goals := rest } :: callers, ?_⟩⟩
  · unfold State.floor
    simp only [parked, pushed.calls]
    cases live.state.calls with
    | nil => exact pushed.registers
    | cons f frames => rw [List.getLast?_cons_cons]; rfl
  · have called := running'.withGoals rest a.closing
    constructor
    case reads => exact called.reads
    case fresh => exact called.fresh
    case callers =>
      refine .cons (Nat.le_refl _) called.window ⟨fun h member => ?_, ending, ?_, ?_⟩
        called.callers
      · exact known h (List.mem_cons_of_mem g member)
      · exact compiledEnding
      · have behind := placed.right.tail
        rwa [← place] at behind
    case rooted =>
      have met : ∀ v, v ∈ (compileArgs ⟨a.vars⟩ a.seen g.args).2 ↔ v ∈ a.seen ∨ .var v ∈ g.args :=
        fun v => mem_compileArgs
      have stopped := Rooted.call (r := goal answer next (a :: callers)) rooted rest running.fresh
        running.window knownArgs met
      simpa [goal, Resolvent.stillSilent, Activation.resolved, goals, Goal.mapVariables] using stopped
    case completed => exact called.completed
    case failed => exact called.failed
    case goal =>
      refine ⟨g.mapVariables a.value, ?_, ?_, ?_, ?_⟩
      · simp [goal, Activation.resolved, goals]
      · rw [Goal.label_mapVariables]
      · rw [Goal.arity_mapVariables]
        exact size ▸ Nat.le_add_left ..
      · intro k t found
        have base : live'.state.heap.size - g.arity = live.state.heap.size := by omega
        rw [Goal.arity_mapVariables]
        change read' (live'.state.heap.size - g.arity + k) = t
        rw [base]
        exact pushed.new k t found

private theorem resume_call (running : Running code read next live.state a callers)
    (continues : Continues code live.state.pc a)
    (rooted : Rooted root answer silent (a :: callers)) {g : Goal} {rest : List Goal}
    (goals : a.goals = g :: rest) :
    Yields (code.runThrough findall fuel) live
      ((goal answer next (a :: callers)).finish root live.features)
      fun _ live' features => live'.features = features ∧ live'.state.floor = live.state.floor ∧
        Represents code root live'.state (goal answer next (a :: callers))
          ((goal answer next (a :: callers)).stillSilent root silent) := by
  obtain ⟨live', stops, found⟩ := running.stopAtCall findall continues rooted goals
  have waits : (goal answer next (a :: callers)).finish root live.features = .ok live.features := by
    simp [Resolvent.finish, goal, Activation.resolved, goals]
  rw [waits]
  exact ⟨(), live', runThrough_stop running.isStopped stops, found⟩

/-- The return of the root completes the proof. -/
private theorem complete (running : Running code read next live.state a [])
    (rooted : Rooted root answer silent [a]) (goals : a.goals = []) :
    ∃ live', Exec.return? live = (.ok false, live') ∧ live'.features = live.features ∧
      live'.state.floor = live.state.floor ∧
      Represents code root live'.state (goal answer next [a])
        ((goal answer next [a]).stillSilent root silent) := by
  have noCalls := running.callers.frames_nil
  refine ⟨{ live with state := { live.state with completed := true } }, ?_, rfl, rfl,
    .inr ⟨read, a, ?_⟩⟩
  · simp only [Exec.return?, noCalls]
  · have none : (goal answer next [a]).goals = [] := by simp [goal, Activation.resolved, goals]
    refine ⟨running.reads, running.fresh, running.window, ?_, none, rfl, running.failed, running.pending,
      noCalls⟩
    rw [Resolvent.stillSilent, none]
    exact rooted

/-- A return uncovers the caller. -/
theorem return_caller (live : Live) {b : Activation} {rest : List Activation}
    (running : Running code read next live.state a (b :: rest)) :
    ∃ f frames live', live.state.calls = f :: frames ∧ Exec.return? live = (.ok true, live') ∧
      live'.state.calls = frames ∧ live'.features = live.features ∧
      live'.state.floor = live.state.floor ∧ Continues code live'.state.pc b ∧
      Running code read next live'.state b rest := by
  obtain ⟨f, frames, isCalls, below, window, continues, lower⟩ := running.callers.latest
  have room := running.window.room
  have size : (live.state.registers.take f.registerTop).size = f.registerTop := by
    rw [Array.take_eq_extract, Array.size_extract]
    omega
  have same : ∀ i < f.registerTop,
      (live.state.registers.take f.registerTop)[i]? = live.state.registers[i]? := by
    intro i inside
    rw [Array.take_eq_extract, Array.getElem?_extract, if_pos (by omega), Nat.zero_add]
  refine ⟨f, frames, { live with state := { live.state with
    registers := live.state.registers.take f.registerTop
    pc := f.resume
    calls := frames } }, isCalls, ?_, rfl, rfl, ?_, continues, ?_⟩
  · simp only [Exec.return?, isCalls]
  · unfold State.floor
    rw [isCalls]
    cases frames with
    | nil => exact size
    | cons g frames => rw [List.getLast?_cons_cons]; rfl
  · refine ⟨running.reads, running.fresh.tail, ?_, ?_, running.completed, running.failed,
      running.pending⟩
    · rw [size]
      exact window.congr fun i inside _ => same i inside
    · rw [size]
      exact lower.congr fun i inside => same i (by omega)

/-- The closing feature of the root is reported, and nothing else is. -/
private theorem close (findall : Nat → Exec Unit)
    (running : Running code read next live.state a [])
    (continues : Continues code live.state.pc a) (rooted : Rooted root answer silent [a])
    (goals : a.goals = []) :
    Yields (code.runSegment findall live.state.pc) live
      ((goal answer next [a]).finish root live.features)
      fun returned live' features => returned = false ∧ live'.features = features ∧
        live'.state.floor = live.state.floor ∧ Represents code root live'.state (goal answer next [a])
          ((goal answer next [a]).stillSilent root silent) := by
  obtain ⟨-, ending, compiledEnding, placed⟩ := continues
  rw [goals] at compiledEnding placed
  cases closing : root.closing with
  | none =>
    rw [rooted.2.1, closing] at compiledEnding
    cases compiledEnding
    obtain ⟨live', returns, features, floor, represents⟩ := running.complete rooted goals
    have ends : (goal answer next [a]).finish root live.features = .ok live.features := by
      simp [Resolvent.finish, closing]
    rw [ends]
    refine ⟨false, live', ?_, rfl, features, floor, represents⟩
    rw [Code.runSegment_ret placed.fetch, returns]
  | some f =>
    rw [rooted.2.1, closing] at compiledEnding
    obtain ⟨instructions, compiled, rfl⟩ := Except.map_eq_ok.1 compiledEnding
    change code.HasAt live.state.pc (_ :: (instructions ++ [.ret])) at placed
    have stays : ∀ i ∈ Instruction.clearFeatures :: instructions, i.leaves = false := by
      rintro i (_ | ⟨_, member⟩)
      · rfl
      · exact compileFeature_stays compiled i member
    -- the answer lists what the variables stand for, and the closing feature names no others
    have report : (goal answer next [a]).finish root live.features =
        f.report ⟨a.vars⟩ a.value >>= fun feature =>
          pure (FeatureMap.single feature.1 feature.2) := by
      have values : ∀ v ∈ a.seen, (goal answer next [a]).value root v = a.value v :=
        fun v seen => Resolvent.value_eq (rooted.1 ▸ rooted.2.2.1)
          (rooted.1 ▸ (running.window.set v seen).1)
      have same := f.report_congr compiled values
      have none : (goal answer next [a]).goals = [] := by simp [goal, Activation.resolved, goals]
      simp only [Resolvent.finish, none, closing, ← rooted.1]
      rw [same]
    rw [report]
    let cleared : Live :=
      { live with state := { live.state with pc := live.state.pc + 1 }, features := [] }
    have started : line findall live.state.pc (.clearFeatures :: instructions) live =
        line findall (live.state.pc + 1) instructions cleared :=
      line_step (show step findall .clearFeatures live = (.ok true, { live with features := [] })
        from rfl)
    have line : Yields (line findall live.state.pc (.clearFeatures :: instructions)) live
        (f.report ⟨a.vars⟩ a.value) _ :=
      Yields.of_eq started ((running.setPc _).reportFeature (live.state.pc + 1) cleared compiled)
    have behind : code.HasAt (live.state.pc + (Instruction.clearFeatures :: instructions).length)
        [.ret] := (List.cons_append ▸ placed : code.HasAt live.state.pc
          ((Instruction.clearFeatures :: instructions) ++ [.ret])).right
    refine Yields.runSegment (List.cons_append ▸ placed : code.HasAt live.state.pc
      ((Instruction.clearFeatures :: instructions) ++ [.ret])).left stays line fun live' feature h => ?_
    obtain ⟨⟨read', running'⟩, ⟨calls, registers⟩, features, -⟩ := h
    obtain ⟨live'', returns, features', floor, represents⟩ := running'.complete rooted goals
    refine ⟨false, live'', ?_, rfl, features'.trans features, floor.trans ?_, represents⟩
    · rw [Code.runSegment_ret behind.fetch, returns]
    · unfold State.floor
      rw [calls, registers]

/-- Running on ends where the pending goals foretell: at the call of the next goal, or at the end of
the proof with what the root reports. -/
theorem resume (findall : Nat → Exec Unit)
    (running : Running code read next live.state a callers)
    (continues : Continues code live.state.pc a)
    (rooted : Rooted root answer silent (a :: callers)) (enough : fuel = live.state.calls.length) :
    Yields (code.runThrough findall fuel) live
      ((goal answer next (a :: callers)).finish root live.features)
      fun _ live' features => live'.features = features ∧ live'.state.floor = live.state.floor ∧
        Represents code root live'.state (goal answer next (a :: callers))
          ((goal answer next (a :: callers)).stillSilent root silent) := by
  induction callers generalizing a live read fuel with
  | nil =>
    cases goals : a.goals with
    | cons g rest => exact running.resume_call continues rooted goals
    | nil =>
      have closes := running.close findall continues rooted goals
      cases result : (goal answer next [a]).finish root live.features with
      | error e =>
        rw [result] at closes
        exact runThrough_error running.isStopped closes
      | ok features =>
        rw [result] at closes
        obtain ⟨returned, live', done, rfl, found⟩ := closes
        exact ⟨(), live', runThrough_stop running.isStopped done, found⟩
  | cons b rest ih =>
    cases goals : a.goals with
    | cons g rest => exact running.resume_call continues rooted goals
    | nil =>
      obtain ⟨-, ending, compiledEnding, placed⟩ := continues
      rw [goals] at compiledEnding placed
      rw [rooted.1] at compiledEnding
      cases compiledEnding
      -- an activation without goals returns to its caller, which has one frame less above it
      obtain ⟨f, frames, live', calls, returns, callsRest, features, floor, continues, running'⟩ :=
        running.return_caller live
      rw [calls, List.length_cons] at enough
      have same : goal answer next (a :: b :: rest) = goal answer next (b :: rest) := by
        simp [goal, Activation.resolved, goals]
      have others := ih running' continues rooted.2 (congrArg List.length callsRest).symm
      rw [same, ← features, ← floor, enough]
      refine Yields.of_eq (runThrough_return running.isStopped ?_) others
      rw [Code.runSegment_ret placed.fetch, returns]

end Running

end ProofWalk
