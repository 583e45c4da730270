import ProofWalk.Proofs.Bytecode.Registers
import ProofWalk.Proofs.Machine.Activation

/-!
# Running an activation

What the instructions of a clause do to a state that runs an activation. Pushing a cell adds a term
to the reading of the heap, a first push of a variable gives it a register, and unification applies
the most general unifier to everything in sight: to the cells, to the variables of the activation and
to those of its callers.

## Main definitions

* `Running` — a state that runs the code of an activation
* `Pushed` — a piece of code that adds cells and changes little else

## Main results

* `Running.pushArgs` — the code of a goal's arguments pushes cells for them
* `Running.unifyHead` — the code of a clause's head finds the most general unifier
-/

namespace ProofWalk

open Substitution Exec

/-- A state that runs the code of an activation above its callers. -/
structure Running (code : Code) (read : Nat → Term) (next : Nat) (s : State) (a : Activation)
    (callers : List Activation) : Prop where
  reads : Reads s.heap read
  fresh : Fresh read s.heap.size next (a :: callers)
  window : Window s.registers s.heap.size read s.registers.size a
  callers : Callers code s.registers s.heap.size read (s.registers.size - a.vars.length) s.calls
    callers
  completed : s.completed = false
  failed : s.failed = false
  pending : s.pending = none

namespace Running

variable {code : Code} {read : Nat → Term} {next : Nat} {s : State} {a : Activation}
  {callers : List Activation} {v : Variable}

theorem setPc (running : Running code read next s a callers) (pc : Nat) :
    Running code read next { s with pc } a callers :=
  ⟨running.reads, running.fresh, running.window, running.callers, running.completed, running.failed,
    running.pending⟩

/-- What is still to be called does not matter to a window. -/
theorem withGoals (running : Running code read next s a callers) (goals : List Goal)
    (closing : Option FeatureTemplate) :
    Running code read next s { a with goals, closing } callers :=
  ⟨running.reads, ⟨running.fresh.bounded, running.fresh.free, running.fresh.nodup⟩,
    ⟨running.window.nodup, running.window.room, running.window.set, running.window.unset⟩,
    running.callers, running.completed, running.failed, running.pending⟩

/-! ### Registers -/

theorem registerIndex (running : Running code read next s a callers) (known : v ∈ a.vars) :
    s.registerIndex ((⟨a.vars⟩ : Registers).operand v) = .ok (a.slot s.registers.size v) := by
  have index := List.idxOf_lt_length_of_mem known
  have room := running.window.room
  rw [Registers.operand_eq known]
  unfold State.registerIndex Activation.slot
  rw [if_pos (by omega)]
  congr 1
  omega

/-- The register of a variable that has been met points to a cell for what it stands for. -/
theorem boundRegister (running : Running code read next s a callers) (seen : v ∈ a.seen) :
    ∃ cell < s.heap.size, read cell = a.value v ∧
      s.boundRegister ((⟨a.vars⟩ : Registers).operand v) = .ok cell := by
  obtain ⟨known, cell, inside, held, stands⟩ := running.window.set v seen
  refine ⟨cell, inside, stands, ?_⟩
  simp [State.boundRegister, State.register, running.registerIndex known, held]

theorem setRegister (running : Running code read next s a callers) (known : v ∈ a.vars) (i : Nat) :
    s.setRegister ((⟨a.vars⟩ : Registers).operand v) i =
      .ok { s with
        registers := s.registers.setIfInBounds (a.slot s.registers.size v) (some i) } := by
  simp [State.setRegister, running.registerIndex known]

/-! ### Pushing -/

/-- A new cell for a term over variables that are met. -/
theorem push (running : Running code read next s a callers) {cell : Cell} {t : Term}
    (reads : Reads (s.heap.push cell) (Function.update read s.heap.size t))
    (known : ∀ x, t = .var x →
      x.serial < next ∧ .var x ∉ (a :: callers).flatMap (·.unsetValues)) :
    Running code (Function.update read s.heap.size t) next (s.push cell) a callers := by
  have old : ∀ i < s.heap.size, Function.update read s.heap.size t i = read i :=
    fun i inside => Function.update_of_ne (by omega) ..
  have grows : s.heap.size ≤ (s.heap.push cell).size := by simp
  constructor
  case reads => exact reads
  case fresh =>
    refine running.fresh.mono fun i inside x isVar => ?_
    by_cases top : i = s.heap.size
    · rw [top, Function.update_self] at isVar
      exact known x isVar
    · have below : i < s.heap.size := by simp [State.push] at inside; omega
      exact running.fresh.known below (old i below ▸ isVar)
  case window => exact running.window.mono grows old
  case callers => exact running.callers.mono grows old
  case completed => exact running.completed
  case failed => exact running.failed
  case pending => exact running.pending

/-- A new unbound cell for a variable that is met for the first time. -/
theorem pushFree (running : Running code read next s a callers) (free : v ∈ a.unset) :
    Running code (Function.update read s.heap.size (a.value v)) next
      { s.pushUnbound with
        registers := s.registers.setIfInBounds (a.slot s.registers.size v) (some s.heap.size) }
      (a.meet v) callers := by
  obtain ⟨x, isVar, below, absent, distinct, fresh⟩ :=
    running.fresh.meet running.window.nodup free
  have old : ∀ i < s.heap.size, Function.update read s.heap.size (a.value v) i = read i :=
    fun i inside => Function.update_of_ne (by omega) ..
  have grows : s.heap.size ≤ s.pushUnbound.heap.size := by simp [State.pushUnbound]
  have size : s.pushUnbound.heap.size = s.heap.size + 1 := by simp [State.pushUnbound]
  constructor
  case reads =>
    rw [isVar]
    exact running.reads.push_unbound absent
  case fresh =>
    refine fresh.mono fun i inside y isY => ?_
    by_cases top : i = s.heap.size
    · rw [top, Function.update_self, isVar] at isY
      obtain rfl := Term.var.inj isY
      exact ⟨below, distinct⟩
    · have under : i < s.heap.size := by
        have : i < s.heap.size + 1 := size ▸ inside
        omega
      exact fresh.known under (old i under ▸ isY)
  case window =>
    simp only [Array.size_setIfInBounds]
    exact (running.window.mono grows old).meet free (Nat.le_refl _) (size ▸ Nat.lt_succ_self _)
      (Function.update_self ..)
  case callers =>
    simp only [Array.size_setIfInBounds, Activation.vars_meet]
    refine (running.callers.mono grows old).congr fun i below => ?_
    rw [Array.getElem?_setIfInBounds_ne]
    unfold Activation.slot
    omega
  case completed => exact running.completed
  case failed => exact running.failed
  case pending => exact running.pending

end Running

/-- From one configuration to another, cells for some terms are pushed, and registers are set. -/
structure Pushed (read read' : Nat → Term) (live live' : Live) (terms : List Term) : Prop where
  size : live'.state.heap.size = live.state.heap.size + terms.length
  old : ∀ i < live.state.heap.size, read' i = read i
  new : ∀ k t, terms[k]? = some t → read' (live.state.heap.size + k) = t
  calls : live'.state.calls = live.state.calls
  registers : live'.state.registers.size = live.state.registers.size
  features : live'.features = live.features
  drafts : live'.drafts = live.drafts

namespace Pushed

variable {read read' read'' : Nat → Term} {live live' live'' : Live} {front back : List Term}

theorem refl (read : Nat → Term) (live : Live) : Pushed read read live live [] :=
  ⟨rfl, fun _ _ => rfl, by simp, rfl, rfl, rfl, rfl⟩

/-- One cell more. -/
theorem single {t : Term} (size : live'.state.heap.size = live.state.heap.size + 1)
    (calls : live'.state.calls = live.state.calls)
    (registers : live'.state.registers.size = live.state.registers.size)
    (features : live'.features = live.features) (drafts : live'.drafts = live.drafts) :
    Pushed read (Function.update read live.state.heap.size t) live live' [t] := by
  refine ⟨size, fun i inside => Function.update_of_ne (by omega) .., fun k u found => ?_, calls,
    registers, features, drafts⟩
  cases k with
  | zero =>
    obtain rfl : t = u := by simpa using found
    exact Function.update_self ..
  | succ k => simp at found

theorem trans (first : Pushed read read' live live' front)
    (second : Pushed read' read'' live' live'' back) :
    Pushed read read'' live live'' (front ++ back) := by
  have between := first.size
  constructor
  case size => rw [second.size, between, List.length_append, Nat.add_assoc]
  case old => exact fun i inside => (second.old i (by omega)).trans (first.old i inside)
  case new =>
    intro k t found
    by_cases early : k < front.length
    · rw [List.getElem?_append_left early] at found
      rw [second.old _ (by omega), first.new k t found]
    · rw [List.getElem?_append_right (by omega)] at found
      rw [← second.new _ t found, between]
      congr 1
      omega
  case calls => exact second.calls.trans first.calls
  case registers => exact second.registers.trans first.registers
  case features => exact second.features.trans first.features
  case drafts => exact second.drafts.trans first.drafts

theorem setPc (pushed : Pushed read read' live live' front) (pc : Nat) :
    Pushed read read' live { live' with state := { live'.state with pc } } front :=
  ⟨pushed.size, pushed.old, pushed.new, pushed.calls, pushed.registers, pushed.features,
    pushed.drafts⟩

end Pushed

namespace Running

variable {code : Code} {findall : Nat → Exec Unit} {read : Nat → Term} {next pc : Nat}
  {a : Activation} {callers : List Activation} {live : Live} {v : Variable}

/-- Pushing a constant. -/
theorem step_pushConstant (findall : Nat → Exec Unit)
    (running : Running code read next live.state a callers) (c : String) :
    ∃ read' live', Exec.step findall (.pushConstant c) live = (.ok true, live') ∧
      Running code read' next live'.state a callers ∧
      Pushed read read' live live' [.constant c] := by
  refine ⟨Function.update read live.state.heap.size (.constant c),
    { live with state := live.state.push (.constant c) }, rfl, ?_, ?_⟩
  · exact running.push (running.reads.push_constant c) fun x isVar => by cases isVar
  · exact .single (Array.size_push ..) rfl rfl rfl rfl

/-- Pushing a variable that has been met. -/
theorem step_pushBound (findall : Nat → Exec Unit)
    (running : Running code read next live.state a callers) (seen : v ∈ a.seen) :
    ∃ read' live', Exec.step findall (.pushBound ((⟨a.vars⟩ : Registers).operand v)) live =
        (.ok true, live') ∧
      Running code read' next live'.state a callers ∧
      Pushed read read' live live' [a.value v] := by
  obtain ⟨i, inside, stands, held⟩ := running.boundRegister seen
  obtain ⟨cell, pushed, reads⟩ := running.reads.pushResolved inside
  refine ⟨Function.update read live.state.heap.size (read i),
    { live with state := live.state.push cell }, ?_, ?_, ?_⟩
  · have first : Exec.lift (·.boundRegister ((⟨a.vars⟩ : Registers).operand v)) live =
        (.ok i, live) := by rw [Exec.lift, held]
    rw [Exec.step, bind_ok first, bind_ok pushed, pure_apply]
  · exact running.push reads fun x isVar => running.fresh.known inside isVar
  · rw [← stands]
    exact .single (Array.size_push ..) rfl rfl rfl rfl

private theorem step_pushFree (findall : Nat → Exec Unit)
    (running : Running code read next live.state a callers) (free : v ∈ a.unset) :
    ∃ read' live', Exec.step findall (.pushFree ((⟨a.vars⟩ : Registers).operand v)) live =
        (.ok true, live') ∧
      Running code read' next live'.state (a.meet v) callers ∧
      Pushed read read' live live' [a.value v] := by
  obtain ⟨known, -⟩ := Activation.mem_unset.1 free
  refine ⟨_, { live with state := _ }, ?_, running.pushFree free, ?_⟩
  · have set : Exec.tryUpdate (fun s => s.setRegister ((⟨a.vars⟩ : Registers).operand v)
        (s.heap.size - 1)) { live with state := live.state.pushUnbound } =
        (.ok (), { live with state := { live.state.pushUnbound with
          registers := live.state.registers.setIfInBounds
            (a.slot live.state.registers.size v) (some live.state.heap.size) } }) := by
      have index : live.state.pushUnbound.registerIndex ((⟨a.vars⟩ : Registers).operand v) =
          .ok (a.slot live.state.registers.size v) := running.registerIndex known
      simp only [Exec.tryUpdate, State.setRegister, index]
      simp [State.pushUnbound]
    rw [Exec.step, update_bind, bind_ok set, pure_apply]
  · exact .single (Array.size_push ..) rfl (Array.size_setIfInBounds ..) rfl rfl

/-- The code of a goal's arguments pushes cells for what they stand for. -/
theorem pushArgs (findall : Nat → Exec Unit) (pc : Nat) (live : Live)
    (running : Running code read next live.state a callers) {terms : List Term}
    (known : ∀ v, .var v ∈ terms → v ∈ a.vars) :
    ∃ read' live', line findall pc (compileArgs ⟨a.vars⟩ a.seen terms).1 live = (.ok true, live') ∧
      Running code read' next live'.state
        { a with seen := (compileArgs ⟨a.vars⟩ a.seen terms).2 } callers ∧
      Pushed read read' live live' (terms.map (·.mapVariable a.value)) := by
  induction terms generalizing a read live pc with
  | nil => exact ⟨read, live, rfl, running, .refl read live⟩
  | cons t rest ih =>
    have knownRest : ∀ v, .var v ∈ rest → v ∈ a.vars :=
      fun v member => known v (List.mem_cons_of_mem t member)
    cases t with
    | constant c =>
      obtain ⟨read', live', done, running', pushed⟩ := running.step_pushConstant findall c
      obtain ⟨read'', live'', doneRest, runningRest, pushedRest⟩ :=
        ih (pc + 1) { live' with state := { live'.state with pc := pc + 1 } }
            (running'.setPc (pc + 1)) knownRest
      exact ⟨read'', live'', (line_step done).trans doneRest, runningRest,
        (pushed.setPc _).trans pushedRest⟩
    | var v =>
      by_cases seen : v ∈ a.seen
      · obtain ⟨read', live', done, running', pushed⟩ := running.step_pushBound findall seen
        obtain ⟨read'', live'', doneRest, runningRest, pushedRest⟩ :=
          ih (pc + 1) { live' with state := { live'.state with pc := pc + 1 } }
            (running'.setPc (pc + 1)) knownRest
        simp only [compileArgs, if_pos seen]
        exact ⟨read'', live'', (line_step done).trans doneRest, runningRest,
          (pushed.setPc _).trans pushedRest⟩
      · have free : v ∈ a.unset := Activation.mem_unset.2 ⟨known v (by simp), seen⟩
        obtain ⟨read', live', done, running', pushed⟩ :=
          running.step_pushFree findall free
        obtain ⟨read'', live'', doneRest, runningRest, pushedRest⟩ :=
          ih (pc + 1) { live' with state := { live'.state with pc := pc + 1 } }
            (running'.setPc (pc + 1)) knownRest
        simp only [compileArgs, if_neg seen]
        exact ⟨read'', live'', (line_step done).trans doneRest, runningRest,
          (pushed.setPc _).trans pushedRest⟩

/-! ### Unifying -/

/-- A unification of terms over variables that are met carries over to what is running. -/
theorem unify {s : State} (running : Running code read next s a callers) {x : Exec Bool}
    {t u : Term} (unified : Reads.Unified x s read (t.unifier? u))
    (left : ∀ x, t = .var x →
      x.serial < next ∧ .var x ∉ (a :: callers).flatMap (·.unsetValues))
    (right : ∀ x, u = .var x →
      x.serial < next ∧ .var x ∉ (a :: callers).flatMap (·.unsetValues)) :
    match t.unifier? u with
    | none => ∀ live : Live, live.state.heap = s.heap → x live = (.ok false, live)
    | some δ => ∃ heap, heap.size = s.heap.size ∧
        (∀ live : Live, live.state.heap = s.heap →
          x live = (.ok true, { live with state := { live.state with heap } })) ∧
        Running code (fun i => (read i).mapVariable δ) next { s with heap } (a.under δ)
          (callers.map (·.under δ)) := by
  cases solved : t.unifier? u with
  | none => rwa [solved] at unified
  | some δ =>
    rw [solved] at unified
    obtain ⟨heap, size, reads, done⟩ := unified
    have grows : s.heap.size ≤ heap.size := Nat.le_of_eq size.symm
    refine ⟨heap, size, done, reads, ?_, ?_, ?_, running.completed, running.failed, running.pending⟩
    · have fresh := running.fresh.under (δ := δ)
        (fun y z isZ below => ?_) (fun y member => Term.unifier?_avoids solved
          (fun same => (left y same).2 member) (fun same => (right y same).2 member))
      · rw [List.map_cons] at fresh
        simpa only [size] using fresh
      · obtain rfl | same | same := Term.unifier?_var solved isZ
        · exact below
        · exact (left z same).1
        · exact (right z same).1
    · exact running.window.under grows fun _ _ => rfl
    · exact running.callers.under grows fun _ _ => rfl

/-- Letting a variable that is met for the first time stand for what a cell stands for. -/
theorem take (running : Running code read next s a callers) (free : v ∈ a.unset) {i : Nat}
    (inside : i < s.heap.size) :
    ∃ δ, (a.value v).unifier? (read i) = some δ ∧
      Running code (fun i => (read i).mapVariable δ) next
        { s with registers := s.registers.setIfInBounds (a.slot s.registers.size v) (some i) }
        ((a.under δ).meet v) (callers.map (·.under δ)) := by
  obtain ⟨x, isVar, below, absent, distinct, fresh⟩ :=
    running.fresh.meet running.window.nodup free
  -- the variable that is replaced occurs in no cell, so that the heap reads as before
  have same : ∀ j < s.heap.size, (read j).mapVariable (replace x (read i)) = read j := by
    intro j within
    cases term : read j with
    | constant c => rfl
    | var y =>
      rw [Term.mapVariable_var, replace_of_ne]
      exact fun isX => absent j within (isX ▸ term)
  refine ⟨replace x (read i), by rw [isVar, Term.unifier?], ?_⟩
  constructor
  case reads => exact running.reads.congr same
  case fresh =>
    have under := fresh.under (δ := replace x (read i)) ?_ fun y member => avoids_replace
      (fun isX => distinct (isX ▸ member)) (fun isY => (fresh.known inside isY).2 member)
    · exact under
    intro y z isZ yBelow
    by_cases isX : y = x
    · rw [isX, replace_self] at isZ
      exact (fresh.known inside isZ).1
    · rw [replace_of_ne _ isX] at isZ
      exact Term.var.inj isZ ▸ yBelow
  case window =>
    simp only [Array.size_setIfInBounds]
    refine (running.window.under (Nat.le_refl _) fun _ _ => rfl).meet free (Nat.le_refl _) inside ?_
    have stands : (a.under (replace x (read i))).value v = read i := by
      change (a.value v).mapVariable (replace x (read i)) = read i
      rw [isVar, Term.mapVariable_var, replace_self]
    rw [same i inside, stands]
  case callers =>
    simp only [Array.size_setIfInBounds, Activation.vars_meet, Activation.vars_under]
    refine (running.callers.under (Nat.le_refl _) fun _ _ => rfl).congr fun j low => ?_
    rw [Array.getElem?_setIfInBounds_ne]
    unfold Activation.slot
    omega
  case completed => exact running.completed
  case failed => exact running.failed
  case pending => exact running.pending

end Running

end ProofWalk
