import ProofWalk.Proofs.Machine.Derivations
import ProofWalk.Proofs.Machine.Keys
import ProofWalk.Proofs.Resolution.Remainder

/-!
# Merging states by their keys

States with equal keys stand for one resolvent: their canonical forms number the variables alike, and
the renaming that pairs the variables carries one resolvent into the other. What a state does depends
on its resolvent only, so such states take the same steps, to states whose keys are equal again. A run
that goes on from another state of the same key, whenever it likes, shows the same features and ends
in the same answer.

## Main definitions

* `Machine.Reaches` — the states that runs arrive at
* `Reached` — what a state stands for that a run of a query arrives at
* `Resolvent.Renames` — two resolvents that are the same but for the names of variables
* `Machine.outcomes` — the features and the ends of runs that change to representatives

## Main results

* `Represents.rename` — a state stands for the renamings of its resolvent
* `Reached.common` — states with equal keys stand for one resolvent
* `Reached.key_eq_iff` — what a key tells: the resolvent up to renaming, and the variables of the query
  without a register
* `Machine.key_bisimulation` — states with equal keys behave alike
-/

namespace ProofWalk

/-! ### Renaming what a state stands for -/

section

variable {read : Nat → Term} {ρ : Variable → Variable}

theorem Term.mapVariable_eq_var {t : Term} {x : Variable}
    (isVar : t.mapVariable (Substitution.ofVariables ρ) = .var x) : ∃ y, t = .var y ∧ ρ y = x := by
  cases t with
  | constant c => cases isVar
  | var y => exact ⟨y, rfl, Term.var.inj isVar⟩

theorem Term.mapVariable_injective (injective : Function.Injective ρ) :
    Function.Injective (Term.mapVariable (Substitution.ofVariables ρ)) := by
  rintro (c | v) (d | w) equal
  · exact congrArg _ (Term.constant.inj equal)
  · cases equal
  · cases equal
  · exact congrArg _ (injective (Term.var.inj equal))

/-- The cells stand for the renamed terms. -/
theorem Reads.rename {heap : Array Cell} (reads : Reads heap read)
    (injective : Function.Injective ρ) :
    Reads heap fun i => (read i).mapVariable (Substitution.ofVariables ρ) where
  constant cell := by rw [reads.constant cell, Term.mapVariable_constant]
  ref cell := by
    obtain ⟨below, equal⟩ := reads.ref cell
    exact ⟨below, by rw [equal]⟩
  unbound cell := by
    obtain ⟨v, isVar⟩ := reads.unbound cell
    exact ⟨ρ v, by rw [isVar, Term.mapVariable_var]⟩
  distinct left right equal :=
    reads.distinct left right (Term.mapVariable_injective injective equal)

/-- Variables without a register stay apart from all others. -/
theorem Fresh.rename {size next next' : Nat} {activations : List Activation}
    (fresh : Fresh read size next activations) (injective : Function.Injective ρ)
    (bound : ∀ v, v.serial < next → (ρ v).serial < next') :
    Fresh (fun i => (read i).mapVariable (Substitution.ofVariables ρ)) size next'
      (activations.map (·.under (Substitution.ofVariables ρ))) := by
  have values : (activations.map (·.under (Substitution.ofVariables ρ))).flatMap (·.unsetValues) =
      (activations.flatMap (·.unsetValues)).map (·.mapVariable (Substitution.ofVariables ρ)) := by
    rw [List.flatMap_map, List.map_flatMap]
    exact List.flatMap_congr fun a _ => a.unsetValues_under _
  constructor
  case bounded =>
    intro i inside x isVar
    obtain ⟨y, isY, rfl⟩ := Term.mapVariable_eq_var isVar
    exact bound y (fresh.bounded i inside y isY)
  case free =>
    intro t member
    rw [values] at member
    obtain ⟨u, inOld, rfl⟩ := List.mem_map.1 member
    obtain ⟨x, rfl, below, absent⟩ := fresh.free u inOld
    refine ⟨ρ x, rfl, bound x below, fun i inside isVar => ?_⟩
    obtain ⟨y, isY, same⟩ := Term.mapVariable_eq_var isVar
    exact absent i inside (isY.trans (congrArg _ (injective same)))
  case nodup =>
    rw [values]
    exact fresh.nodup.map (Term.mapVariable_injective injective)

/-- A resolvent with its variables renamed, which are below `next`. -/
def Resolvent.rename (ρ : Variable → Variable) (next : Nat) (r : Resolvent) : Resolvent :=
  { r.mapVariables (Substitution.ofVariables ρ) with next }

/-- A state stands for the renamings of its resolvent. -/
theorem Represents.rename {code : Code} {root : Root} {s : State} {r : Resolvent}
    {silent : List Variable} (represents : Represents code root s r silent)
    (injective : Function.Injective ρ) {next : Nat}
    (bound : ∀ v, v.serial < r.next → (ρ v).serial < next) :
    Represents code root s (r.rename ρ next) silent := by
  obtain ⟨read, activations, waiting⟩ | ⟨read, a, solved⟩ := represents
  · have fresh := waiting.fresh.rename injective bound
    refine .inl ⟨fun i => (read i).mapVariable (Substitution.ofVariables ρ),
      activations.map (Activation.under · (Substitution.ofVariables ρ)),
      waiting.reads.rename injective, fresh,
      waiting.callers.under (Nat.le_refl _) fun i _ => rfl, waiting.rooted.under _,
      waiting.completed, waiting.failed, ?_⟩
    obtain ⟨g, goals, pending, inside, args⟩ := waiting.goal
    refine ⟨g.mapVariables (Substitution.ofVariables ρ), ?_, ?_, ?_, fun k t found => ?_⟩
    · rw [Resolvent.rename, Resolvent.mapVariables, goals, List.map_cons, List.map_flatMap,
        List.flatMap_map]
      exact congrArg _ (List.flatMap_congr fun a _ => (a.resolved_under _).symm)
    · rw [pending, Goal.label_mapVariables]
    · rwa [Goal.arity_mapVariables]
    · change (g.args.map (·.mapVariable (Substitution.ofVariables ρ)))[k]? = some t at found
      rw [List.getElem?_map] at found
      obtain ⟨u, isArg, rfl⟩ := Option.map_eq_some_iff.1 found
      rw [Goal.arity_mapVariables, args k u isArg]
  · have fresh := solved.fresh.rename injective bound
    exact .inr ⟨fun i => (read i).mapVariable (Substitution.ofVariables ρ),
      a.under (Substitution.ofVariables ρ), solved.reads.rename injective, fresh,
      solved.window.under (Nat.le_refl _) fun i _ => rfl, solved.rooted.under _,
      by rw [Resolvent.rename, Resolvent.mapVariables, solved.goals]; rfl, solved.completed,
      solved.failed, solved.pending, solved.calls⟩

end

open Token (number rename)

/-! ### What a reached state stands for -/

/-- A state that a run of a query arrives at stands for a resolvent. -/
structure Reached (code : Code) (q : Query) (s : State) (r : Resolvent) (silent : List Variable) :
    Prop where
  represents : Represents code (.ofQuery q) s r silent
  floor : s.floor = q.vars.length
  remains : Remains q r silent
  fits : ∀ g ∈ r.goals, g.arity < Text.wordLimit

namespace Reached

variable {code : Code} {q : Query} {s s' : State} {r r' : Resolvent} {silent silent' : List Variable}

theorem key_eq (reached : Reached code q s r silent) (count : code.queryRegisters = q.vars.length) :
    code.key s = { parts := (number [] (r.tokens (.ofQuery q) silent)).1 } :=
  reached.represents.key_eq rfl reached.floor count fun g _ goals =>
    reached.fits g (goals ▸ List.mem_cons_self)

/-- The answer lists what the variables of the query stand for. -/
theorem answer_eq (reached : Reached code q s r silent) :
    r.answer = q.vars.map (r.value (.ofQuery q)) := by
  have window : ∃ b : Activation, b.vars = q.vars ∧ b.vars.map b.value = r.answer := by
    obtain ⟨_, _, waiting⟩ | ⟨_, _, solved⟩ := reached.represents
    · obtain ⟨b, -, -, vars, answer, -⟩ := waiting.rootWindow
      exact ⟨b, vars, answer⟩
    · obtain ⟨-, vars, answer, -⟩ := solved.rootWindow
      exact ⟨_, vars, answer⟩
  obtain ⟨b, vars, answer⟩ := window
  rw [vars] at answer
  rw [← answer]
  exact List.map_congr_left fun v known =>
    (@Resolvent.value_eq r (.ofQuery q) _ answer v known).symm

/-- The variables without a register, in the order of the query. -/
theorem silent_eq (reached : Reached code q s r silent) : silent = q.vars.filter (· ∈ silent) := by
  have window : ∃ b : Activation, b.vars = q.vars ∧ b.unset = silent := by
    obtain ⟨_, _, waiting⟩ | ⟨_, _, solved⟩ := reached.represents
    · obtain ⟨b, -, -, vars, -, unset⟩ := waiting.rootWindow
      exact ⟨b, vars, unset⟩
    · obtain ⟨-, vars, -, unset⟩ := solved.rootWindow
      exact ⟨_, vars, unset⟩
  obtain ⟨b, vars, rfl⟩ := window
  rw [Activation.unset, vars]
  refine List.filter_congr fun v known => ?_
  simp [known]

theorem rename (reached : Reached code q s r silent) {ρ : Variable → Variable}
    (injective : Function.Injective ρ) {next : Nat}
    (bound : ∀ v, v.serial < r.next → (ρ v).serial < next) (remains : Remains q (r.rename ρ next) silent) :
    Reached code q s (r.rename ρ next) silent where
  represents := reached.represents.rename injective bound
  floor := reached.floor
  remains := remains
  fits g member := by
    obtain ⟨h, inGoals, rfl⟩ := List.mem_map.1 member
    rw [Goal.arity_mapVariables]
    exact reached.fits h inGoals

end Reached

/-! ### One resolvent for two states -/

theorem mem_number_of_mem {met : List Variable} {ts : List Token} {v : Variable}
    (member : .term (.var v) ∈ ts) : v ∈ (number met ts).2 := by
  induction ts generalizing met with
  | nil => cases member
  | cons t ts ih =>
    obtain _ | ⟨_, later⟩ := member
    · have known : v ∈ meet met v := mem_meet.2 (.inr rfl)
      have kept : meet met v <+: (number (meet met v) ts).2 := Token.prefix_number
      exact kept.subset known
    · exact ih later

theorem nodup_number {met : List Variable} (nodup : met.Nodup) (ts : List Token) :
    (number met ts).2.Nodup := by
  induction ts generalizing met with
  | nil => exact nodup
  | cons t ts ih => exact ih (Token.nodup_part nodup)

/-- A renaming that pairs the variables of two lists and moves all others out of the way. -/
theorem exists_renaming {vs ws : List Variable} (length : vs.length = ws.length)
    (nodup : ws.Nodup) (limit : Nat) :
    ∃ ρ : Variable → Variable, Function.Injective ρ ∧ (∀ v ∈ vs, ρ v = align vs ws v) ∧
      ∃ next, limit ≤ next ∧ ∀ v, v.serial < limit → (ρ v).serial < next := by
  have paired : ∀ v ∈ vs, align vs ws v ∈ ws ∧ ws.idxOf (align vs ws v) = vs.idxOf v := by
    intro v known
    have inside : vs.idxOf v < ws.length := length ▸ List.idxOf_lt_length_of_mem known
    have aligned : align vs ws v = ws[vs.idxOf v] := by
      rw [align, List.getElem?_eq_getElem inside, Option.getD_some]
    rw [aligned]
    exact ⟨List.getElem_mem inside, nodup.idxOf_getElem _ inside⟩
  refine ⟨fun v => if v ∈ vs then align vs ws v else v.shift (serialBound ws), ?_,
    fun v known => if_pos known, limit + serialBound ws, Nat.le_add_right .., fun v below => ?_⟩
  · intro v w equal
    have separate : ∀ {v w : Variable}, v ∈ vs → align vs ws v ≠ w.shift (serialBound ws) := by
      intro v w known same
      have below := serial_lt_serialBound (paired v known).1
      rw [same] at below
      change w.serial + serialBound ws < serialBound ws at below
      omega
    by_cases left : v ∈ vs <;> by_cases right : w ∈ vs
    · simp only [if_pos left, if_pos right] at equal
      refine (List.idxOf_inj left).1 ?_
      rw [← (paired v left).2, ← (paired w right).2, equal]
    · simp only [if_pos left, if_neg right] at equal
      exact absurd equal (separate left)
    · simp only [if_neg left, if_pos right] at equal
      exact absurd equal.symm (separate right)
    · simp only [if_neg left, if_neg right] at equal
      exact Variable.shift_injective _ equal
  · by_cases known : v ∈ vs
    · simp only [if_pos known]
      exact Nat.lt_add_left limit (serial_lt_serialBound (paired v known).1)
    · simp only [if_neg known]
      exact Nat.add_lt_add_right below _

/-- Two resolvents that are the same but for the names of variables: goals and answers are. -/
def Resolvent.Renames (r r' : Resolvent) : Prop :=
  ∃ ρ : Variable → Variable, Function.Injective ρ ∧
    r.goals.map (·.mapVariables (Substitution.ofVariables ρ)) = r'.goals ∧
    r.answer.map (·.mapVariable (Substitution.ofVariables ρ)) = r'.answer

namespace Reached

variable {code : Code} {q : Query} {s s' : State} {r r' : Resolvent} {silent silent' : List Variable}

/-- States with equal keys stand for resolvents that are renamings of each other, and the same variables
of the query have no register. -/
theorem exists_rename_of_key_eq (reached : Reached code q s r silent)
    (reached' : Reached code q s' r' silent') (count : code.queryRegisters = q.vars.length)
    (same : code.key s = code.key s') :
    silent = silent' ∧ ∃ (ρ : Variable → Variable) (next : Nat), Function.Injective ρ ∧
      max r.next r'.next ≤ next ∧ (∀ v, v.serial < max r.next r'.next → (ρ v).serial < next) ∧
      r.goals.map (·.mapVariables (Substitution.ofVariables ρ)) = r'.goals ∧
      r.answer.map (·.mapVariable (Substitution.ofVariables ρ)) = r'.answer := by
  rw [reached.key_eq count, reached'.key_eq count, Key.mk.injEq] at same
  obtain ⟨length, paired⟩ := Token.number_inj (show [].length = [].length from rfl) same
  -- variables with one number in the keys are paired, and all others are moved out of the way
  obtain ⟨ρ, injective, aligns, next, enough, bound⟩ := exists_renaming length
    (nodup_number List.nodup_nil _) (max r.next r'.next)
  have renamed : (r.tokens (.ofQuery q) silent).map (Token.rename ρ) =
      r'.tokens (.ofQuery q) silent' := by
    refine (List.map_congr_left fun t member => ?_).trans paired
    match t with
    | .term (.var v) =>
      exact congrArg (fun w => Token.term (.var w)) (aligns v (mem_number_of_mem member))
    | .term (.constant c) | .completed | .unset | .goal l => rfl
  obtain ⟨goals, silences, values⟩ := Resolvent.tokens_inj renamed
  obtain rfl : silent = silent' := by
    rw [reached.silent_eq, reached'.silent_eq]
    refine List.filter_congr fun v known => ?_
    simp [silences v known]
  refine ⟨rfl, ρ, next, injective, enough, bound, goals, ?_⟩
  rw [reached.answer_eq, reached'.answer_eq, List.map_map]
  refine List.map_congr_left fun v known => ?_
  by_cases isSilent : v ∈ silent
  · exact reached.remains.value_eq reached'.remains goals isSilent
  · exact values v known isSilent

/-- States with equal keys stand for one resolvent. -/
theorem common (reached : Reached code q s r silent) (reached' : Reached code q s' r' silent')
    (count : code.queryRegisters = q.vars.length) (same : code.key s = code.key s') :
    ∃ r silent, Reached code q s r silent ∧ Reached code q s' r silent := by
  obtain ⟨rfl, ρ, next, injective, enough, bound, goals, answer⟩ :=
    reached.exists_rename_of_key_eq reached' count same
  have identity : (r'.rename id next).answer = r'.answer := List.map_id'' Term.mapVariable_id _
  have sameGoals : (r'.rename id next).goals = r'.goals := List.map_id'' Goal.mapVariables_var _
  have one : r.rename ρ next = r'.rename id next :=
    congrArg₂ (Resolvent.mk · · next) (answer.trans identity.symm) (goals.trans sameGoals.symm)
  have value : (r'.rename id next).value (.ofQuery q) = r'.value (.ofQuery q) := by
    funext v
    rw [Resolvent.value, Resolvent.value, identity]
  have remains : Remains q (r'.rename id next) silent := by
    obtain ⟨lengths, known, left, leftmost⟩ := reached'.remains
    refine ⟨(List.length_map _).trans lengths, known, ?_, ?_⟩
    · rw [value, sameGoals]
      exact left
    · rw [value, sameGoals]
      exact leftmost
  refine ⟨r'.rename id next, silent, one ▸ ?_, ?_⟩
  · exact reached.rename injective (fun v below => bound v (by omega)) (one ▸ remains)
  · exact reached'.rename Function.injective_id (fun v below => by
      change v.serial < next
      omega) remains

/-- Keys tell resolvents apart up to renaming, and they tell which variables of the query have no register:
two keys are equal exactly if both are the same. -/
theorem key_eq_iff (reached : Reached code q s r silent) (reached' : Reached code q s' r' silent')
    (count : code.queryRegisters = q.vars.length) :
    code.key s = code.key s' ↔ r.Renames r' ∧ silent = silent' := by
  constructor
  · intro same
    obtain ⟨silences, ρ, -, injective, -, -, goals, answer⟩ :=
      reached.exists_rename_of_key_eq reached' count same
    exact ⟨⟨ρ, injective, goals, answer⟩, silences⟩
  · rintro ⟨⟨ρ, injective, goals, answer⟩, rfl⟩
    have values : ∀ v ∈ q.vars, (r.value (.ofQuery q) v).mapVariable (Substitution.ofVariables ρ) =
        r'.value (.ofQuery q) v := fun v known =>
      (Resolvent.value_mapVariable reached.remains.answer answer.symm known).symm
    rw [reached.key_eq count, reached'.key_eq count, ← Resolvent.map_rename_tokens goals values,
      show ([] : List Variable) = [].map ρ from rfl, Token.number_rename injective]
    rfl

/-- The variables without a register are those whose register holds nothing. -/
theorem mem_silent_iff (reached : Reached code q s r silent) {i : Nat} {v : Variable}
    (isVar : q.vars[i]? = some v) : v ∈ silent ↔ s.registers[i]? = some none := by
  have window : ∃ read, ∃ b : Activation, Window s.registers s.heap.size read s.floor b ∧
      b.vars = q.vars ∧ b.unset = silent := by
    obtain ⟨read, _, waiting⟩ | ⟨read, _, solved⟩ := reached.represents
    · obtain ⟨b, -, window, vars, -, unset⟩ := waiting.rootWindow
      exact ⟨read, b, window, vars, unset⟩
    · obtain ⟨window, vars, -, unset⟩ := solved.rootWindow
      exact ⟨read, _, window, vars, unset⟩
  obtain ⟨read, b, window, vars, rfl⟩ := window
  have slot : b.slot s.floor v = i := by
    have index : b.vars.idxOf v = i := by
      rw [vars]
      obtain ⟨inside, rfl⟩ := List.getElem?_eq_some_iff.1 isVar
      exact (vars ▸ window.nodup).idxOf_getElem i inside
    rw [Activation.slot, reached.floor, vars, Nat.sub_self, Nat.zero_add, ← vars, index]
  constructor
  · intro free
    rw [← slot]
    exact window.unset v free
  · intro held
    by_contra said
    have known : v ∈ b.vars := vars ▸ List.mem_of_getElem? isVar
    obtain ⟨-, cell, -, holds, -⟩ := window.set v (by
      by_contra unseen
      exact said (Activation.mem_unset.2 ⟨known, unseen⟩))
    rw [slot, held] at holds
    cases holds

end Reached

/-! ### Steps of reached states -/

/-- The start state stands for the query. -/
theorem Reached.start (m : Machine) {q : Query}
    (fits : ∀ g ∈ q.goals, g.arity < Text.wordLimit) {s : State} {m' : Machine}
    (started : m.startQuery q = (.ok s, m')) :
    m'.code = m.installed q ∧ ∃ r silent, Reached m'.code q s r silent := by
  obtain ⟨s', m'', started', code, floor, represents⟩ := m.startQuery_represents q
  rw [started] at started'
  cases started'
  exact ⟨code, _, _, code ▸ represents, floor, Remains.start q, fits⟩

/-- A move keeps what a reached state stands for. -/
theorem Reached.step {code : Code} {q : Query} {t : Theory} {s : State} {r : Resolvent}
    {silent : List Variable} (reached : Reached code q s r silent)
    (fits : ∀ clause ∈ t.clauses, ∀ g ∈ clause.1.rhs, g.arity < Text.wordLimit)
    {moves : List ProofMove} (found : t.moves (.ofQuery q) r = .ok moves) {move : ProofMove}
    (member : move ∈ moves) {link : Outlink}
    (follows : Follows code (.ofQuery q) silent s.floor link move) :
    Reached code q link.child move.child (move.child.stillSilent (.ofQuery q) silent) := by
  obtain ⟨body, leads, fromRules⟩ := Theory.child_of_mem_moves found member
  refine ⟨follows.represents, follows.floor.trans reached.floor, reached.remains.step leads, ?_⟩
  obtain ⟨g, rest, θ, goals, -, childGoals⟩ := leads
  intro h inGoals
  rw [childGoals] at inGoals
  obtain ⟨b, inBody, rfl⟩ := List.mem_map.1 inGoals
  rw [Goal.arity_mapVariables]
  obtain inBody | inRest := List.mem_append.1 inBody
  · obtain ⟨clause, inClauses, c, inRhs, arity⟩ := fromRules b inBody
    exact arity ▸ fits clause inClauses c inRhs
  · exact reached.fits b (goals ▸ List.mem_cons_of_mem g inRest)

/-! ### Runs -/

namespace Machine

/-- The states that the runs from a state arrive at. -/
inductive Reaches (m : Machine) (start : State) : State → Prop
  | start : Reaches m start start
  | step {s : State} {links : List Outlink} {link : Outlink} (reaches : Reaches m start s)
      (linked : (m.outlinks s).1 = .ok links) (member : link ∈ links) : Reaches m start link.child

/-- The features of the steps from a state with the keys of the states that they lead to. -/
def labelledSteps (m : Machine) (s : State) : Except Error (List (FeatureMap × Key)) :=
  (m.outlinks s).1.map fun links => links.map fun link => (link.features, m.code.key link.child)

/-- What a run shows: the features of its steps, and whether its last state is completed and what it
binds. -/
structure Outcome where
  features : List FeatureMap
  completed : Bool
  bindings : List (Option Term)

/-- What a run shows after one more step in front. -/
def Outcome.after (link : Outlink) (o : Outcome) : Outcome :=
  { o with features := link.features :: o.features }

/-- What the runs of a length show that go on from representatives of the states they arrive at. -/
def outcomes (m : Machine) (rep : State → State) : Nat → State → Except Error (List Outcome)
  | 0, s => .ok [{ features := [], completed := s.completed, bindings := m.code.bindings s }]
  | n + 1, s => do
    let links ← (m.outlinks s).1
    let behind ← links.mapM fun link =>
      (outcomes m rep n (rep link.child)).map (·.map (Outcome.after link))
    return behind.flatten

end Machine

section Runs

variable {m : Machine} {q : Query} {t : Theory} {s s' : State} {r : Resolvent}
  {silent : List Variable}

/-- The features and the keys of the steps depend on the resolvent only. -/
theorem Reached.labelledSteps_eq (reached : Reached m.code q s r silent) (obeys : m.code.Obeys t)
    (fits : ∀ clause ∈ t.clauses, ∀ g ∈ clause.1.rhs, g.arity < Text.wordLimit)
    (count : m.code.queryRegisters = q.vars.length) :
    m.labelledSteps s = (t.moves (.ofQuery q) r).map fun moves => moves.map fun move =>
      (move.edge, { parts := (number [] (move.child.tokens (.ofQuery q)
        (move.child.stillSilent (.ofQuery q) silent))).1 }) := by
  have steps := reached.represents.outlinks obeys m.live
  rw [Machine.labelledSteps]
  change ((m.code.outlinks s m.live).1).map _ = _
  cases found : t.moves (.ofQuery q) r with
  | error e =>
    rw [found] at steps
    have failed : (m.code.outlinks s m.live).1 = .error e := steps
    rw [failed]
    rfl
  | ok moves =>
    rw [found] at steps
    obtain ⟨links, live', done, follow⟩ := steps
    rw [done]
    refine congrArg Except.ok (List.ext_getElem ?_ fun i left right => ?_)
    · rw [List.length_map, List.length_map, follow.length_eq]
    · rw [List.length_map] at left right
      have here : Follows m.code (.ofQuery q) silent s.floor links[i] moves[i] :=
        follow.get left right
      have child := reached.step fits found (List.getElem_mem right) here
      rw [List.getElem_map, List.getElem_map, child.key_eq count]
      exact congrArg (·, _) here.features

/-- A state that a run arrives at stands for a resolvent. -/
theorem Machine.Reaches.reached {start : State} (reaches : m.Reaches start s)
    (obeys : m.code.Obeys t)
    (fits : ∀ clause ∈ t.clauses, ∀ g ∈ clause.1.rhs, g.arity < Text.wordLimit)
    (first : ∃ r silent, Reached m.code q start r silent) :
    ∃ r silent, Reached m.code q s r silent := by
  induction reaches with
  | start => exact first
  | @step s links link _ linked member ih =>
    obtain ⟨r, silent, reached⟩ := ih
    obtain ⟨moves, found, follow⟩ := reached.represents.links_follow obeys linked
    obtain ⟨i, inside, rfl⟩ := List.mem_iff_getElem.1 member
    have inMoves : i < moves.length := follow.length_eq ▸ inside
    exact ⟨_, _, reached.step fits found (List.getElem_mem inMoves) (follow.get inside inMoves)⟩

/-- States with equal keys are alike: they end in the same answer, and their steps fail alike or carry
the same features to states with equal keys. -/
theorem Reached.alike {r' : Resolvent} {silent' : List Variable}
    (reached : Reached m.code q s r silent) (reached' : Reached m.code q s' r' silent')
    (obeys : m.code.Obeys t)
    (fits : ∀ clause ∈ t.clauses, ∀ g ∈ clause.1.rhs, g.arity < Text.wordLimit)
    (count : m.code.queryRegisters = q.vars.length) (same : m.code.key s = m.code.key s') :
    s.completed = s'.completed ∧ m.code.bindings s = m.code.bindings s' ∧
      m.labelledSteps s = m.labelledSteps s' := by
  obtain ⟨r, silent, one, other⟩ := reached.common reached' count same
  refine ⟨?_, ?_, ?_⟩
  · rw [one.represents.completed, other.represents.completed]
  · rw [one.represents.bindings_eq one.floor count, other.represents.bindings_eq other.floor count]
  · rw [one.labelledSteps_eq obeys fits count, other.labelledSteps_eq obeys fits count]

/-- Runs that go on from representatives show what runs show that do not, if representatives are alike
wherever they are taken. -/
theorem Machine.outcomes_eq {rep : State → State} {start : State}
    (represents : ∀ s, m.Reaches start s →
      m.Reaches start (rep s) ∧ m.code.key (rep s) = m.code.key s)
    (alike : ∀ s s', m.Reaches start s → m.Reaches start s' → m.code.key s = m.code.key s' →
      s.completed = s'.completed ∧ m.code.bindings s = m.code.bindings s' ∧
        m.labelledSteps s = m.labelledSteps s')
    (n : Nat) (reaches : m.Reaches start s) (reaches' : m.Reaches start s')
    (same : m.code.key s = m.code.key s') : m.outcomes rep n s = m.outcomes id n s' := by
  induction n generalizing s s' with
  | zero =>
    obtain ⟨completed, bindings, -⟩ := alike s s' reaches reaches' same
    rw [outcomes, outcomes, completed, bindings]
  | succ n ih =>
    obtain ⟨-, -, steps⟩ := alike s s' reaches reaches' same
    rw [labelledSteps, labelledSteps] at steps
    rw [outcomes, outcomes]
    cases linked : (m.outlinks s).1 with
    | error e =>
      cases linked' : (m.outlinks s').1 with
      | error e' =>
        rw [linked, linked'] at steps
        cases steps
        rfl
      | ok links' =>
        rw [linked, linked'] at steps
        cases steps
    | ok links =>
      cases linked' : (m.outlinks s').1 with
      | error e' =>
        rw [linked, linked'] at steps
        cases steps
      | ok links' =>
        rw [linked, linked'] at steps
        have lists := Except.ok.inj steps
        have lengths : links.length = links'.length := by simpa using congrArg List.length lists
        -- steps of one label lead to states of one key, from where runs go on alike
        have behind : List.Forall₂ (fun link link' : Outlink =>
            (m.outcomes rep n (rep link.child)).map (·.map (Outcome.after link)) =
              (m.outcomes id n link'.child).map (·.map (Outcome.after link'))) links links' := by
          refine List.forall₂_iff_get.2 ⟨lengths, fun i left right => ?_⟩
          have here := List.getElem_of_eq lists (by simpa using left)
          rw [List.getElem_map, List.getElem_map] at here
          obtain ⟨features, key⟩ := Prod.mk.inj here
          have child := represents _ (reaches.step linked (List.getElem_mem left))
          have child' := reaches'.step linked' (List.getElem_mem right)
          have after : Outcome.after links[i] = Outcome.after links'[i] := by
            funext o
            rw [Outcome.after, Outcome.after, features]
          change (m.outcomes rep n (rep links[i].child)).map (·.map (Outcome.after links[i])) =
            (m.outcomes id n links'[i].child).map (·.map (Outcome.after links'[i]))
          rw [ih child.1 child' (child.2.trans key), after]
        exact congrArg (· >>= fun outcomes => pure (List.flatten outcomes)) (Except.mapM_congr behind)

end Runs

end ProofWalk
