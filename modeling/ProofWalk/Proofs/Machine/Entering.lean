import ProofWalk.Proofs.Machine.Running

/-!
# Entering a clause

A clause that is entered opens a window of unset registers, so that all its variables stand for
variables that nothing else mentions. The code of its head then goes through the arguments that the
caller pushed, and ends in a clash or in the most general unifier of head and call.

## Main definitions

* `headEquations` — head arguments against the cells that the caller pushed

## Main results

* `Running.unifyHead` — the code of a head solves its equations
-/

namespace ProofWalk

open Substitution Exec

/-- Two configurations that differ in what cells and registers hold and in their place only. -/
structure SameShape (live live' : Live) : Prop where
  heap : live'.state.heap.size = live.state.heap.size
  registers : live'.state.registers.size = live.state.registers.size
  calls : live'.state.calls = live.state.calls
  features : live'.features = live.features
  drafts : live'.drafts = live.drafts

theorem SameShape.trans {live live' live'' : Live} (first : SameShape live live')
    (second : SameShape live' live'') : SameShape live live'' :=
  ⟨second.heap.trans first.heap, second.registers.trans first.registers,
    second.calls.trans first.calls, second.features.trans first.features,
    second.drafts.trans first.drafts⟩

/-- The equations between the arguments of a head and consecutive cells. -/
def headEquations (value : Substitution) (read : Nat → Term) (base : Nat) (terms : List Term) :
    List (Term × Term) :=
  (terms.map (·.mapVariable value)).zip ((List.range' base terms.length).map read)

theorem headEquations_cons (value : Substitution) (read : Nat → Term) (base : Nat) (t : Term)
    (rest : List Term) :
    headEquations value read base (t :: rest) =
      (t.mapVariable value, read base) :: headEquations value read (base + 1) rest := by
  simp [headEquations, List.range'_succ]

theorem substituted_headEquations (δ value : Substitution) (read : Nat → Term) (base : Nat)
    (terms : List Term) :
    substituted δ (headEquations value read base terms) =
      headEquations (δ.after value) (fun i => (read i).mapVariable δ) base terms := by
  induction terms generalizing base with
  | nil => rfl
  | cons t rest ih =>
    rw [headEquations_cons, headEquations_cons, ← ih, substituted, List.map_cons,
      Term.mapVariable_mapVariable]
    rfl

theorem State.heapIndex_eq {s : State} {base : Nat} {argument : Int}
    (counted : argument = base - s.heap.size) (inside : base < s.heap.size) :
    s.heapIndex argument = .ok base := by
  unfold heapIndex
  rw [if_pos (by omega)]
  congr 1
  omega

namespace Running

variable {code : Code} {findall : Nat → Exec Unit} {read : Nat → Term} {next pc : Nat}
  {a : Activation} {callers : List Activation} {live : Live} {v : Variable}

/-- Code of a head that solves equations: it clashes where there is no solution, and otherwise
applies the solution to all that runs; `seen` are the variables met afterwards. -/
def Solves (code : Code) (next : Nat) (read : Nat → Term) (a : Activation)
    (callers : List Activation) (seen : List Variable) (live : Live)
    (result : Except Error Bool × Live) : Option Substitution → Prop
  | none => result.1 = .ok false ∧ result.2.state.failed = true
  | some θ => result.1 = .ok true ∧ SameShape live result.2 ∧
      Running code (fun i => (read i).mapVariable θ) next result.2.state { a.under θ with seen }
        (callers.map (·.under θ))

/-- What an instruction of the head does for its equation. -/
private theorem head_step (findall : Nat → Exec Unit) {live : Live}
    (running : Running code read next live.state a callers)
    {t : Term} {rest : List Term} {base : Nat} {argument : Int}
    (counted : argument = base - live.state.heap.size) (inside : base < live.state.heap.size)
    (known : ∀ v, .var v ∈ t :: rest → v ∈ a.vars) :
    ∃ i seen, (compileHead ⟨a.vars⟩ a.seen argument (t :: rest)) =
        (i :: (compileHead ⟨a.vars⟩ seen (argument + 1) rest).1,
          (compileHead ⟨a.vars⟩ seen (argument + 1) rest).2) ∧
      match (t.mapVariable a.value).unifier? (read base) with
      | none => Exec.step findall i live = (.ok false, live)
      | some δ => ∃ live', Exec.step findall i live = (.ok true, live') ∧ SameShape live live' ∧
          Running code (fun i => (read i).mapVariable δ) next live'.state
            { a.under δ with seen } (callers.map (·.under δ)) := by
  have place : Exec.lift (·.heapIndex argument) live = (.ok base, live) := by
    rw [Exec.lift, State.heapIndex_eq counted inside]
  have cell : ∀ x, read base = .var x →
      x.serial < next ∧ .var x ∉ (a :: callers).flatMap (·.unsetValues) :=
    fun x isVar => running.fresh.known inside isVar
  cases t with
  | constant c =>
    refine ⟨.unifyConstant c argument, a.seen, rfl, ?_⟩
    have unified := running.unify (running.reads.unifyConstant inside c)
      (fun x isVar => by cases isVar) cell
    rw [Exec.step, bind_ok place, Term.mapVariable_constant]
    cases solved : (Term.constant c).unifier? (read base) with
    | none =>
      rw [solved] at unified
      exact unified live rfl
    | some δ =>
      rw [solved] at unified
      obtain ⟨heap, size, done, running'⟩ := unified
      exact ⟨_, done live rfl, ⟨size, rfl, rfl, rfl, rfl⟩, running'⟩
  | var v =>
    rw [Term.mapVariable_var]
    -- the first occurrence of a variable takes the argument, and later ones are unified with it
    by_cases seen : v ∈ a.seen
    · obtain ⟨i, within, stands, held⟩ := running.boundRegister seen
      refine ⟨.unifyBound ((⟨a.vars⟩ : Registers).operand v) argument, a.seen,
        by rw [compileHead, if_pos seen], ?_⟩
      have register : Exec.lift (·.boundRegister ((⟨a.vars⟩ : Registers).operand v)) live =
          (.ok i, live) := by rw [Exec.lift, held]
      have unified := running.unify (running.reads.unifyCells within inside)
        (fun x isVar => running.fresh.known within isVar) cell
      rw [Exec.step, bind_ok register, bind_ok place, ← stands]
      cases solved : (read i).unifier? (read base) with
      | none =>
        rw [solved] at unified
        exact unified live rfl
      | some δ =>
        rw [solved] at unified
        obtain ⟨heap, size, done, running'⟩ := unified
        exact ⟨_, done live rfl, ⟨size, rfl, rfl, rfl, rfl⟩, running'⟩
    · have free : v ∈ a.unset := Activation.mem_unset.2 ⟨known v (by simp), seen⟩
      refine ⟨.takeArgument ((⟨a.vars⟩ : Registers).operand v) argument, v :: a.seen,
        by rw [compileHead, if_neg seen], ?_⟩
      obtain ⟨δ, solved, running'⟩ := running.take free inside
      let after : Live := { live with state := { live.state with
        registers := live.state.registers.setIfInBounds (a.slot live.state.registers.size v)
          (some base) } }
      have set : Exec.tryUpdate (·.setRegister ((⟨a.vars⟩ : Registers).operand v) base) live =
          (.ok (), after) := by
        rw [Exec.tryUpdate, running.setRegister (known v (by simp))]
      rw [solved]
      refine ⟨after, ?_, ⟨rfl, ?_, rfl, rfl, rfl⟩, running'⟩
      · rw [Exec.step, bind_ok place, bind_ok set, pure_apply]
      · exact Array.size_setIfInBounds ..

/-- The code of a head solves the equations between its arguments and the cells that the caller
pushed, the first of which is `base`; it clashes if they have no solution. -/
theorem unifyHead (findall : Nat → Exec Unit) (pc : Nat) (live : Live)
    (running : Running code read next live.state a callers)
    {terms : List Term} {base : Nat} {argument : Int}
    (counted : argument = base - live.state.heap.size)
    (inside : base + terms.length ≤ live.state.heap.size)
    (known : ∀ v, .var v ∈ terms → v ∈ a.vars) :
    Solves code next read a callers (compileHead ⟨a.vars⟩ a.seen argument terms).2 live
      (line findall pc (compileHead ⟨a.vars⟩ a.seen argument terms).1 live)
      (unifier? (headEquations a.value read base terms)) := by
  induction terms generalizing a read callers live base argument pc with
  | nil =>
    refine ⟨rfl, ⟨rfl, rfl, rfl, rfl, rfl⟩, ?_⟩
    simpa [compileHead] using running
  | cons t rest ih =>
    rw [List.length_cons] at inside
    obtain ⟨i, seen, compiled, first⟩ :=
      running.head_step findall counted (by omega) known
    rw [compiled, headEquations_cons, unifier?_cons]
    cases solved : (t.mapVariable a.value).unifier? (read base) with
    | none =>
      rw [solved] at first
      rw [line_clash first]
      exact ⟨rfl, rfl⟩
    | some δ =>
      rw [solved] at first
      obtain ⟨live', done, shape, running'⟩ := first
      let behind : Live := { live' with state := { live'.state with pc := pc + 1 } }
      have countedRest : argument + 1 = ((base + 1 : Nat) : Int) - behind.state.heap.size := by
        change argument + 1 = ((base + 1 : Nat) : Int) - live'.state.heap.size
        rw [shape.heap, counted]
        push_cast
        omega
      have insideRest : base + 1 + rest.length ≤ behind.state.heap.size := by
        change base + 1 + rest.length ≤ live'.state.heap.size
        rw [shape.heap]
        omega
      -- the rest of the head is solved under the solution of its first equation
      have others := ih (pc + 1) behind (running'.setPc (pc + 1)) countedRest insideRest
        fun v member => known v (List.mem_cons_of_mem t member)
      change Solves _ _ _ _ _ _ _ _
        (unifier? (headEquations (δ.after a.value) (fun i => (read i).mapVariable δ) (base + 1) rest))
        at others
      rw [Option.bind_some, substituted_headEquations, line_step done]
      cases rested : unifier? (headEquations (δ.after a.value)
          (fun i => (read i).mapVariable δ) (base + 1) rest) with
      | none => rwa [rested] at others
      | some θ =>
        rw [rested] at others
        obtain ⟨doneRest, shapeRest, runningRest⟩ := others
        refine ⟨doneRest, ?_, ?_⟩
        · exact shape.trans ⟨shapeRest.heap, shapeRest.registers, shapeRest.calls,
            shapeRest.features, shapeRest.drafts⟩
        · simpa [Term.mapVariable_mapVariable, Activation.under, after_assoc, Function.comp_def]
            using runningRest

end Running

end ProofWalk
