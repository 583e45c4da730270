import ProofWalk.Proofs.Machine.Running
import ProofWalk.Proofs.Resolution.Moves

/-!
# Reporting features

The code of a feature puts a draft together from constants and from what the variables of a clause
stand for. It fails where such a variable is not bound to a constant, and so does the template.

## Main definitions

* `Exec.Yields` — a computation gives a result or fails as foretold
* `Nests` — the machine's nested searches are those of a theory

## Main results

* `Running.reportFeature` — the code of a feature reports what its template says
* `Running.reportFeatures` — the same for all features of a clause
-/

namespace ProofWalk

open Exec

namespace Exec

variable {α β γ δ : Type} {live : Live}

/-- A computation fails with the error foretold, or ends in a result that is related to the one
foretold. -/
def Yields (x : Exec α) (live : Live) (foretold : Except Error β) (related : α → Live → β → Prop) :
    Prop :=
  match foretold with
  | .error e => (x live).1 = .error e
  | .ok b => ∃ a live', x live = (.ok a, live') ∧ related a live' b

theorem Yields.bind {x : Exec α} {f : α → Exec γ} {foretold : Except Error β}
    {next : β → Except Error δ} {related : α → Live → β → Prop} {related' : γ → Live → δ → Prop}
    (first : Yields x live foretold related)
    (rest : ∀ a live' b, related a live' b → Yields (f a) live' (next b) related') :
    Yields (x >>= f) live (foretold >>= next) related' := by
  cases foretold with
  | error e => exact bind_error_fst first
  | ok b =>
    obtain ⟨a, live', done, isRelated⟩ := first
    have result := rest a live' b isRelated
    change Yields (x >>= f) live (next b) related'
    unfold Yields at result ⊢
    rw [bind_ok done]
    exact result

theorem Yields.imp {x : Exec α} {foretold : Except Error β} {related related' : α → Live → β → Prop}
    (yields : Yields x live foretold related)
    (weaker : ∀ a live' b, related a live' b → related' a live' b) :
    Yields x live foretold related' := by
  cases foretold with
  | error e => exact yields
  | ok b =>
    obtain ⟨a, live', done, isRelated⟩ := yields
    exact ⟨a, live', done, weaker a live' b isRelated⟩

/-- A computation that has given a result was foretold one that is related to it. -/
theorem Yields.of_ok {x : Exec α} {foretold : Except Error β} {related : α → Live → β → Prop}
    (yields : Yields x live foretold related) {a : α} {live' : Live} (done : x live = (.ok a, live')) :
    ∃ b, foretold = .ok b ∧ related a live' b := by
  cases foretold with
  | error e =>
    have failed : (x live).1 = .error e := yields
    rw [done] at failed
    cases failed
  | ok b =>
    obtain ⟨_, _, same, isRelated⟩ := yields
    rw [done] at same
    cases same
    exact ⟨b, rfl, isRelated⟩

/-- A computation that has failed was foretold to fail. -/
theorem Yields.of_error {x : Exec α} {foretold : Except Error β} {related : α → Live → β → Prop}
    (yields : Yields x live foretold related) {e : Error} (failed : (x live).1 = .error e) :
    foretold = .error e := by
  cases foretold with
  | error e' =>
    have failed' : (x live).1 = .error e' := yields
    cases failed'.symm.trans failed
    rfl
  | ok b =>
    obtain ⟨_, _, done, -⟩ := yields
    rw [done] at failed
    cases failed

/-- A computation that is known to give a result may stand before the one foretold. -/
theorem Yields.after {x : Exec α} {f : α → Exec γ} {foretold : Except Error δ} {a : α}
    {live' : Live} {related : γ → Live → δ → Prop} (done : x live = (.ok a, live'))
    (rest : Yields (f a) live' foretold related) : Yields (x >>= f) live foretold related := by
  unfold Yields at rest ⊢
  rwa [bind_ok done]

theorem Yields.of_eq {x y : Exec α} {live' : Live} {foretold : Except Error β}
    {related : α → Live → β → Prop} (same : x live = y live')
    (yields : Yields y live' foretold related) : Yields x live foretold related := by
  unfold Yields at yields ⊢
  rwa [same]

/-- Looking at the state changes nothing. -/
theorem Yields.look {f : State → Exec γ} {foretold : Except Error δ} {related : γ → Live → δ → Prop}
    (rest : Yields (f live.state) live foretold related) :
    Yields (state >>= f) live foretold related := rest

variable {findall : Nat → Exec Unit} {pc : Nat}

/-- A line that runs to its end before another line. -/
theorem Yields.line_append {front back : List Instruction} {foretold : Except Error β}
    {next : β → Except Error δ} {related : Live → β → Prop} {related' : Bool → Live → δ → Prop}
    (first : Yields (line findall pc front) live foretold fun ok live' b => ok = true ∧ related live' b)
    (rest : ∀ live' b, related live' b →
      Yields (line findall (pc + front.length) back) live' (next b) related') :
    Yields (line findall pc (front ++ back)) live (foretold >>= next) related' := by
  cases foretold with
  | error e =>
    have failed : line findall pc front live = (.error e, (line findall pc front live).2) :=
      Prod.ext first rfl
    change (line findall pc (front ++ back) live).1 = .error e
    rw [Exec.line_append, failed]
  | ok b =>
    obtain ⟨ok, live', done, rfl, isRelated⟩ := first
    have result := rest live' b isRelated
    change Yields (line findall pc (front ++ back)) live (next b) related'
    unfold Yields at result ⊢
    rw [Exec.line_append, done]
    exact result

theorem Yields.line_cons {i : Instruction} {back : List Instruction} {foretold : Except Error β}
    {next : β → Except Error δ} {related : Live → β → Prop} {related' : Bool → Live → δ → Prop}
    (first : Yields (step findall i) live foretold fun ok live' b => ok = true ∧ related live' b)
    (rest : ∀ live' b, related live' b →
      Yields (line findall (pc + 1) back) { live' with state := { live'.state with pc := pc + 1 } }
        (next b) related') :
    Yields (line findall pc (i :: back)) live (foretold >>= next) related' := by
  cases foretold with
  | error e => exact line_error first
  | ok b =>
    obtain ⟨ok, live', done, rfl, isRelated⟩ := first
    have result := rest live' b isRelated
    change Yields (line findall pc (i :: back)) live (next b) related'
    unfold Yields at result ⊢
    rwa [line_step done]

/-- A line that a run passes. -/
theorem Yields.runSegment {code : Code} {instructions : List Instruction}
    {foretold : Except Error β} {next : β → Except Error δ} {related : Live → β → Prop}
    {related' : Bool → Live → δ → Prop} (placed : code.HasAt pc instructions)
    (stays : ∀ i ∈ instructions, i.leaves = false)
    (first : Yields (line findall pc instructions) live foretold
      fun ok live' b => ok = true ∧ related live' b)
    (rest : ∀ live' b, related live' b →
      Yields (code.runSegment findall (pc + instructions.length)) live' (next b) related') :
    Yields (code.runSegment findall pc) live (foretold >>= next) related' := by
  cases foretold with
  | error e =>
    have failed : line findall pc instructions live =
        (.error e, (line findall pc instructions live).2) := Prod.ext first rfl
    change (code.runSegment findall pc live).1 = .error e
    rw [Code.runSegment_line placed stays, failed]
  | ok b =>
    obtain ⟨ok, live', done, rfl, isRelated⟩ := first
    have result := rest live' b isRelated
    change Yields (code.runSegment findall pc) live (next b) related'
    unfold Yields at result ⊢
    rw [Code.runSegment_line placed stays, done]
    exact result

theorem Yields.line_single {i : Instruction} {foretold : Except Error β}
    {related : Live → β → Prop}
    (first : Yields (step findall i) live foretold fun ok live' b => ok = true ∧ related live' b) :
    Yields (line findall pc [i]) live foretold fun ok live' b => ok = true ∧
      ∃ before, related before b ∧
        live' = { before with state := { before.state with pc := pc + 1 } } := by
  cases foretold with
  | error e => exact line_error first
  | ok b =>
    obtain ⟨ok, live', done, rfl, isRelated⟩ := first
    exact ⟨true, _, line_step done, rfl, live', isRelated, rfl⟩

/-- An instruction that goes on whatever its computation gives. -/
theorem Yields.and_true {x : Exec Unit} {foretold : Except Error β} {related : Live → β → Prop}
    (first : Yields x live foretold fun _ live' b => related live' b) :
    Yields (x >>= fun _ => pure true) live foretold fun ok live' b => ok = true ∧ related live' b := by
  cases foretold with
  | error e => exact bind_error_fst first
  | ok b =>
    obtain ⟨_, live', done, isRelated⟩ := first
    refine ⟨true, live', ?_, rfl, isRelated⟩
    rw [bind_ok done, pure_apply]

end Exec

/-- What a piece of feature code leaves behind: the activation goes on, and features and drafts are
known. -/
def Continued (code : Code) (next : Nat) (a : Activation) (callers : List Activation)
    (live live' : Live) (features : FeatureMap) (drafts : List FeatureDraft) : Prop :=
  (∃ read, Running code read next live'.state a callers) ∧
    (live'.state.calls = live.state.calls ∧
      live'.state.registers.size = live.state.registers.size) ∧
    live'.features = features ∧ live'.drafts = drafts

/-- Nested searches of the machine, run from the code of a feature that ranges over goals, add what
those of a theory report and leave everything else as it was. -/
def Nests (code : Code) (findall : Nat → Exec Unit)
    (nested : Root → Resolvent → Except Error FeatureMap) : Prop :=
  ∀ ⦃read : Nat → Term⦄ ⦃next : Nat⦄ ⦃live : Live⦄ ⦃a : Activation⦄ ⦃callers : List Activation⦄
    ⦃f : FeatureTemplate⦄ ⦃address : Nat⦄ ⦃instructions : List Instruction⦄,
    Running code read next live.state a callers → f.findall ≠ [] →
    (∀ g ∈ f.findall, ∀ v ∈ g.vars, v ∈ a.vars) →
    compileFindall ⟨a.vars⟩ a.seen f = .ok instructions → code.HasAt address instructions →
    Yields (findall address) live
      (nested { vars := a.vars, closing := some f }
        { answer := a.vars.map a.value, goals := f.findall.map (·.mapVariables a.value), next })
      fun _ live' found => live' = { live with features := FeatureMap.merge live.features found }

/-- The code of features that range over goals lies at addresses. -/
def RangingAt (code : Code) (regs : Registers) (bound : List Variable)
    (features : List FeatureTemplate) (addresses : List Nat) : Prop :=
  List.Forall₂ (fun f address => ∃ instructions,
    compileFindall regs bound f = .ok instructions ∧ code.HasAt address instructions)
    (features.filter fun f => !f.findall.isEmpty) addresses

namespace Running

variable {code : Code} {findall : Nat → Exec Unit} {read : Nat → Term} {next pc : Nat}
  {a : Activation} {callers : List Activation} {live : Live} {v : Variable}

/-- The constant behind the register of a variable is what the variable stands for. -/
private theorem constantAt_register (running : Running code read next live.state a callers)
    (seen : v ∈ a.seen) :
    ∃ i, live.state.boundRegister ((⟨a.vars⟩ : Registers).operand v) = .ok i ∧
      live.state.constantAt i = (a.value v).constant? := by
  obtain ⟨i, inside, stands, held⟩ := running.boundRegister seen
  exact ⟨i, held, by rw [running.reads.constantAt_eq inside, stands]⟩

/-- The code of a feature's argument adds what the argument stands for to the draft. -/
private theorem reportArg (running : Running code read next live.state a callers) {t : Term}
    {i : Instruction} (compiled : compileFeatureArg ⟨a.vars⟩ a.seen t = .ok i) {d : FeatureDraft}
    {rest : List FeatureDraft} (drafts : live.drafts = d :: rest) :
    Yields (Exec.step findall i) live (Registers.argument ⟨a.vars⟩ a.value t) fun ok live' c =>
      ok = true ∧ live' = { live with drafts := { d with args := d.args ++ [c] } :: rest } := by
  cases t with
  | constant c =>
    cases compiled
    refine ⟨true, { live with drafts := { d with args := d.args ++ [c] } :: rest }, ?_, rfl, rfl⟩
    have added : Exec.draft "fpushconst" (fun d => { d with args := d.args ++ [c] }) live =
        (.ok (), { live with drafts := { d with args := d.args ++ [c] } :: rest }) := by
      rw [Exec.draft, drafts]
    rw [Exec.step, bind_ok added, pure_apply]
  | var v =>
    rw [compileFeatureArg] at compiled
    split at compiled
    case isFalse => cases compiled
    case isTrue seen =>
      cases compiled
      obtain ⟨i, held, constant⟩ := running.constantAt_register seen
      have register : Exec.lift (·.boundRegister ((⟨a.vars⟩ : Registers).operand v)) live =
          (.ok i, live) := by rw [Exec.lift, held]
      rw [Exec.step]
      refine Yields.after register ?_
      rw [Registers.argument]
      unfold Yields
      rw [state_bind, constant]
      cases a.value v with
      | var w => rfl
      | constant c =>
        refine ⟨true, { live with drafts := { d with args := d.args ++ [c] } :: rest }, ?_, rfl, rfl⟩
        have added : Exec.draft "fpushboundvar" (fun d => { d with args := d.args ++ [c] }) live =
            (.ok (), { live with drafts := { d with args := d.args ++ [c] } :: rest }) := by
          rw [Exec.draft, drafts]
        change (Exec.draft "fpushboundvar" _ >>= _) live = _
        rw [bind_ok added, pure_apply]

private theorem reportArgs (pc : Nat) (live : Live)
    (running : Running code read next live.state a callers)
    {terms : List Term} {instructions : List Instruction}
    (compiled : terms.mapM (compileFeatureArg ⟨a.vars⟩ a.seen) = .ok instructions)
    {d : FeatureDraft} {rest : List FeatureDraft} (drafts : live.drafts = d :: rest) :
    Yields (line findall pc instructions) live (terms.mapM (Registers.argument ⟨a.vars⟩ a.value))
      fun ok live' names => ok = true ∧ ∃ pc, live' =
        { live with
          state := { live.state with pc }
          drafts := { d with args := d.args ++ names } :: rest } := by
  induction terms generalizing instructions pc live d with
  | nil =>
    cases compiled
    refine ⟨true, live, rfl, rfl, live.state.pc, ?_⟩
    simp [← drafts]
  | cons t terms ih =>
    rw [List.mapM_cons] at compiled ⊢
    obtain ⟨i, first, others⟩ := Except.bind_eq_ok.1 compiled
    obtain ⟨is, compiledRest, equal⟩ := Except.bind_eq_ok.1 others
    cases equal
    refine Yields.line_cons (running.reportArg first drafts) fun live' c isLive' => ?_
    subst isLive'
    have rest := ih (pc + 1)
      { live with
        state := { live.state with pc := pc + 1 }
        drafts := { d with args := d.args ++ [c] } :: rest }
      (running.setPc (pc + 1)) compiledRest rfl
    cases result : terms.mapM (Registers.argument ⟨a.vars⟩ a.value) with
    | error e => rw [result] at rest; exact rest
    | ok names =>
      rw [result] at rest
      obtain ⟨ok, live'', done, isTrue, pc', isLive''⟩ := rest
      refine ⟨ok, live'', done, isTrue, pc', ?_⟩
      rw [isLive'']
      simp

/-- The number below the top of the heap weighs the draft. -/
private theorem weigh (live : Live) {t : Term}
    (running : Running code read next live.state a callers) {bottom : Nat}
    (size : live.state.heap.size = bottom + 2) (reads : read bottom = t)
    {d : FeatureDraft} {rest : List FeatureDraft} (drafts : live.drafts = d :: rest) :
    Yields Exec.weighDraft live
      (weightOf t) fun _ live' w => live' = { live with drafts := { d with weight := w } :: rest } := by
  have below : live.state.heap.size - 2 = bottom := by omega
  have constant : live.state.constantAt bottom = t.constant? := by
    rw [running.reads.constantAt_eq (by omega), reads]
  unfold Yields Exec.weighDraft
  rw [state_bind, if_neg (by omega), below, constant]
  cases t with
  | var v => rfl
  | constant c =>
    simp only [Term.constant?, weightOf, readWeight]
    cases Decimal.read? c with
    | none => rfl
    | some w =>
      refine ⟨(), _, ?_, rfl⟩
      change Exec.draft "fpushweight" _ live = _
      rw [Exec.draft, drafts]

/-- A number is pushed, a functor on top of it, and the draft is weighed. -/
private theorem weightLine {i : Instruction} {t : Term} {read' : Nat → Term} {live' : Live}
    (running' : Running code read' next live'.state a callers)
    (done : Exec.step findall i live = (.ok true, live'))
    (pushed : Pushed read read' live live' [t]) (functor : String)
    {d : FeatureDraft} {rest : List FeatureDraft} (drafts : live.drafts = d :: rest) :
    Yields (line findall pc [i, .pushConstant functor, .featureWeight]) live (weightOf t)
      fun ok live' w => ok = true ∧
        Continued code next a callers live live' live.features ({ d with weight := w } :: rest) := by
  let second : Live := { live' with state := { live'.state with pc := pc + 1 } }
  obtain ⟨read'', live'', doneTop, running'', pushedTop⟩ :=
    (show Running code read' next second.state a callers from running'.setPc _).step_pushConstant
      findall functor
  have all := ((pushed.setPc _).trans pushedTop).setPc (pc + 1 + 1)
  have weighed := (running''.setPc (pc + 1 + 1)).weigh
    { live'' with state := { live''.state with pc := pc + 1 + 1 } } all.size (all.new 0 t rfl)
    (all.drafts.trans drafts)
  refine Yields.of_eq ((line_step done).trans (line_step doneTop)) ?_
  refine (Yields.line_single (i := .featureWeight) (Yields.and_true weighed)).imp ?_
  rintro ok _ w ⟨rfl, live3, isLive3, rfl⟩
  subst isLive3
  refine ⟨rfl, ⟨read'', ?_⟩, ⟨all.calls, all.registers⟩, all.features, rfl⟩
  exact (running''.setPc (pc + 1 + 1)).setPc (pc + 1 + 1 + 1)

/-- The code of a feature's weight weighs the draft. -/
private theorem reportWeight (live : Live)
    (running : Running code read next live.state a callers)
    {w : FeatureWeight} {functor : String} {instructions : List Instruction}
    (compiled : compileWeight ⟨a.vars⟩ a.seen functor w = .ok instructions)
    {d : FeatureDraft} {rest : List FeatureDraft} (drafts : live.drafts = d :: rest)
    (unit : d.weight = 1) :
    Yields (line findall pc instructions) live (w.number a.value) fun ok live' w => ok = true ∧
      Continued code next a callers live live' live.features ({ d with weight := w } :: rest) := by
  cases w with
  | unit =>
    cases compiled
    exact ⟨true, live, rfl, rfl, ⟨read, running⟩, ⟨rfl, rfl⟩, rfl, by rw [drafts, ← unit]⟩
  | fixed w =>
    cases compiled
    obtain ⟨read', live', done, running', pushed⟩ :=
      running.step_pushConstant findall (Decimal.plain w)
    exact running'.weightLine done pushed functor drafts
  | bound v =>
    rw [compileWeight] at compiled
    split at compiled
    case isFalse => cases compiled
    case isTrue seen =>
      cases compiled
      obtain ⟨read', live', done, running', pushed⟩ :=
        running.step_pushBound findall seen
      exact running'.weightLine done pushed functor drafts

/-- The code of a feature reports what its template says. -/
theorem reportFeature (pc : Nat) (live : Live)
    (running : Running code read next live.state a callers)
    {f : FeatureTemplate} {instructions : List Instruction}
    (compiled : compileFeature ⟨a.vars⟩ a.seen f = .ok instructions) :
    Yields (line findall pc instructions) live (f.report ⟨a.vars⟩ a.value)
      fun ok live' (name, weight) => ok = true ∧
        Continued code next a callers live live' (live.features.insert name weight) live.drafts := by
  obtain ⟨args, compiledArgs, others⟩ := Except.bind_eq_ok.1 compiled
  obtain ⟨weight, compiledWeight, equal⟩ := Except.bind_eq_ok.1 others
  cases equal
  let draft : FeatureDraft := { functor := f.goal.functor, args := [], weight := 1 }
  let opened : Live :=
    { live with
      state := { live.state with pc := pc + 1 }
      drafts := draft :: live.drafts }
  have begun : Exec.step findall (.beginFeature f.goal.functor f.goal.arity) live =
      (.ok true, { live with drafts := draft :: live.drafts }) := rfl
  have started : line findall pc (.beginFeature f.goal.functor f.goal.arity ::
        (args ++ weight ++ [.reportFeature])) live =
      line findall (pc + 1) (args ++ weight ++ [.reportFeature]) opened := line_step begun
  refine Yields.of_eq started ?_
  rw [List.append_assoc]
  refine Yields.line_append ((running.setPc (pc + 1)).reportArgs (pc + 1) opened compiledArgs rfl)
    fun live1 names isLive1 => ?_
  obtain ⟨pc1, rfl⟩ := isLive1
  let drafted : Live :=
    { opened with
      state := { live.state with pc := pc1 }
      drafts := { draft with args := draft.args ++ names } :: live.drafts }
  refine Yields.line_append ((running.setPc pc1).reportWeight drafted compiledWeight rfl rfl)
    fun live2 w continued => ?_
  obtain ⟨⟨read2, running2⟩, calls, features, drafts⟩ := continued
  let built : FeatureDraft := { draft with args := draft.args ++ names, weight := w }
  let closed : Live :=
    { live2 with drafts := live.drafts, features := live.features.insert built.name built.weight }
  have reported : Exec.reportDraft live2 = (.ok (), closed) := by
    rw [Exec.reportDraft, drafts, features]
  have done : Exec.step findall .reportFeature live2 = (.ok true, closed) := by
    rw [Exec.step, bind_ok reported, pure_apply]
  exact ⟨true, _, line_step done, rfl, ⟨read2, running2.setPc _⟩, calls, rfl, rfl⟩

/-! ### All features of a clause -/

/-- The code of a clause's features reports what they say. -/
theorem reportFeatures (live : Live) {nested : Root → Resolvent → Except Error FeatureMap}
    (nests : Nests code findall nested) (running : Running code read next live.state a callers)
    {features : List FeatureTemplate} {plain : List (Option (List Instruction))}
    {addresses : List Nat} (known : ∀ f ∈ features, ∀ g ∈ f.findall, ∀ v ∈ g.vars, v ∈ a.vars)
    (compiled : features.mapM (plainCode ⟨a.vars⟩ a.seen) = .ok plain)
    (ranging : RangingAt code ⟨a.vars⟩ a.seen features addresses) :
    Yields (line findall pc (placeFeatures plain addresses)) live
      (features.foldlM (Theory.addReport nested ⟨a.vars⟩ a.value next) live.features)
      fun ok live' found => ok = true ∧
        Continued code next a callers live live' found live.drafts := by
  induction features generalizing plain addresses live read pc with
  | nil =>
    cases compiled
    exact ⟨true, live, rfl, rfl, ⟨read, running⟩, ⟨rfl, rfl⟩, rfl, rfl⟩
  | cons f features ih =>
    rw [List.mapM_cons] at compiled
    obtain ⟨first, compiledFirst, others⟩ := Except.bind_eq_ok.1 compiled
    obtain ⟨rest, compiledRest, equal⟩ := Except.bind_eq_ok.1 others
    cases equal
    rw [List.foldlM_cons, Theory.addReport]
    have knownRest : ∀ f ∈ features, ∀ g ∈ f.findall, ∀ v ∈ g.vars, v ∈ a.vars :=
      fun f' member => known f' (List.mem_cons_of_mem f member)
    -- what the other features do where the first one has reported
    have go : ∀ {live' : Live} {found : FeatureMap} {pc : Nat} {addresses : List Nat},
        Continued code next a callers live live' found live.drafts →
        RangingAt code ⟨a.vars⟩ a.seen features addresses →
        Yields (line findall pc (placeFeatures rest addresses)) live'
          (features.foldlM (Theory.addReport nested ⟨a.vars⟩ a.value next) found)
          fun ok live'' found => ok = true ∧
            Continued code next a callers live live'' found live.drafts := by
      rintro live' found pc addresses ⟨⟨read', running'⟩, calls, rfl, drafts⟩ rangingRest
      refine (ih live' running' knownRest compiledRest rangingRest).imp ?_
      rintro ok live'' found ⟨isTrue, goesOn, callsRest, isFound, draftsRest⟩
      exact ⟨isTrue, goesOn, ⟨callsRest.1.trans calls.1, callsRest.2.trans calls.2⟩, isFound,
        draftsRest.trans drafts⟩
    unfold plainCode at compiledFirst
    unfold RangingAt at ranging
    by_cases single : f.findall.isEmpty
    · rw [if_pos single] at compiledFirst ⊢
      obtain ⟨code, compiledCode, equal⟩ := Except.map_eq_ok.1 compiledFirst
      subst equal
      rw [List.filter_cons_of_neg (by simp [single])] at ranging
      rw [placeFeatures, bind_assoc]
      refine Yields.line_append (running.reportFeature pc live compiledCode) fun live' found h => ?_
      exact go h ranging
    · rw [if_neg single] at compiledFirst ⊢
      cases compiledFirst
      rw [List.filter_cons_of_pos (by simp [single])] at ranging
      obtain _ | ⟨⟨instructions, compiledFindall, placed⟩, rangingRest⟩ := ranging
      rw [placeFeatures, bind_assoc]
      have searched := nests running (by simpa using single) (known f (by simp)) compiledFindall placed
      refine Yields.line_cons (i := .findall _) (Yields.and_true searched) fun live' found h => ?_
      subst h
      exact go ⟨⟨read, running.setPc _⟩, ⟨rfl, rfl⟩, rfl, rfl⟩ rangingRest

end Running

end ProofWalk
