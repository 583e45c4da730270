import ProofWalk.Logic.Basic

/-!
# Function-free unification

Terms are constants and variables, so two terms clash only if they are different constants, and
equations are solved one after the other without looking inside a term. The solution found is a most
general one: every other solution factors through it.

## Main definitions

* `Substitution` — what variables stand for
* `Term.unifier?`, `unifier?` — a solution of one equation, and of a list of equations

## Main results

* `unifier?_unifies`, `unifier?_mostGeneral`, `unifier?_complete` — the solution of a list of
  equations is a solution, the most general one, and found whenever there is one
* `Substitution.Avoids` — a variable that no equation mentions is left alone
-/

namespace ProofWalk

/-- What variables stand for. -/
abbrev Substitution := Variable → Term

namespace Substitution

/-- One substitution after another. -/
def after (δ θ : Substitution) : Substitution := fun v => (θ v).mapVariable δ

/-- The substitution that replaces one variable. -/
def replace (v : Variable) (t : Term) : Substitution := fun w => if w = v then t else .var w

/-- A substitution that neither replaces a variable nor brings it in. -/
def Avoids (θ : Substitution) (x : Variable) : Prop := ∀ y, θ y = .var x ↔ y = x

end Substitution

open Substitution

namespace Term

@[simp] theorem mapVariable_constant (θ : Substitution) (c : String) :
    (constant c).mapVariable θ = constant c := rfl

@[simp] theorem mapVariable_var (θ : Substitution) (v : Variable) :
    (var v).mapVariable θ = θ v := rfl

@[simp] theorem mapVariable_id (t : Term) : t.mapVariable var = t := by
  cases t <;> rfl

theorem mapVariable_mapVariable (θ δ : Substitution) (t : Term) :
    (t.mapVariable θ).mapVariable δ = t.mapVariable (δ.after θ) := by
  cases t <;> rfl

/-- The most general solution of an equation between two terms. -/
def unifier? : Term → Term → Option Substitution
  | constant c, constant d => if c = d then some var else none
  | constant c, var v => some (replace v (constant c))
  | var v, t => some (replace v t)

end Term

namespace Goal

theorem mapVariables_mapVariables (θ δ : Substitution) (g : Goal) :
    (g.mapVariables θ).mapVariables δ = g.mapVariables (δ.after θ) := by
  simp [mapVariables, Term.mapVariable_mapVariable]

@[simp] theorem mapVariables_var (g : Goal) : g.mapVariables .var = g := by
  have same : g.args.map (Term.mapVariable .var) = g.args := List.map_id'' Term.mapVariable_id g.args
  rw [mapVariables, same]

@[simp] theorem arity_mapVariables (θ : Substitution) (g : Goal) :
    (g.mapVariables θ).arity = g.arity := by
  simp [arity, mapVariables]

@[simp] theorem label_mapVariables (θ : Substitution) (g : Goal) :
    (g.mapVariables θ).label = g.label := by
  simp [label, arity, mapVariables]

theorem mem_vars {v : Variable} {g : Goal} : v ∈ g.vars ↔ .var v ∈ g.args := by
  unfold vars
  rw [List.mem_filterMap]
  constructor
  · rintro ⟨t, member, isVariable⟩
    cases t with
    | constant c => simp [Term.var?] at isVariable
    | var w =>
      obtain rfl : w = v := by simpa [Term.var?] using isVariable
      exact member
  · exact fun member => ⟨.var v, member, rfl⟩

end Goal

namespace Substitution

@[simp] theorem after_var (θ : Substitution) : θ.after .var = θ := rfl

@[simp] theorem var_after (θ : Substitution) : after .var θ = θ := by
  funext v
  exact Term.mapVariable_id _

theorem after_assoc (ε δ θ : Substitution) : ε.after (δ.after θ) = (ε.after δ).after θ := by
  funext v
  exact Term.mapVariable_mapVariable δ ε (θ v)

@[simp] theorem replace_self (v : Variable) (t : Term) : replace v t v = t := if_pos rfl

theorem replace_of_ne {v w : Variable} (t : Term) (different : w ≠ v) :
    replace v t w = .var w := if_neg different

theorem avoids_var (x : Variable) : Avoids .var x := fun y => by simp

theorem Avoids.after {δ θ : Substitution} {x : Variable} (outer : δ.Avoids x)
    (inner : θ.Avoids x) : (δ.after θ).Avoids x := by
  intro y
  rw [← inner y]
  change Term.mapVariable δ (θ y) = .var x ↔ θ y = .var x
  generalize θ y = t
  cases t with
  | constant c => simp
  | var w => rw [Term.mapVariable_var, outer w, Term.var.injEq]

theorem avoids_replace {v x : Variable} {t : Term} (other : x ≠ v) (absent : t ≠ .var x) :
    (replace v t).Avoids x := by
  intro y
  by_cases same : y = v
  · subst same
    rw [replace_self]
    exact ⟨fun h => absurd h absent, fun h => absurd h.symm other⟩
  · rw [replace_of_ne t same, Term.var.injEq]

theorem Avoids.apply {θ : Substitution} {x : Variable} (avoids : θ.Avoids x) : θ x = .var x :=
  (avoids x).2 rfl

end Substitution

namespace Term

/-- Two constants are equal or have no solution; a variable is replaced by the other side. -/
theorem unifier?_eq_some {s t : Term} {δ : Substitution} :
    s.unifier? t = some δ ↔
      (∃ c, s = constant c ∧ t = constant c ∧ δ = var) ∨
      (∃ c v, s = constant c ∧ t = var v ∧ δ = replace v (constant c)) ∨
      ∃ v, s = var v ∧ δ = replace v t := by
  cases s with
  | var v => simp [unifier?, eq_comm]
  | constant c =>
    cases t with
    | constant d => by_cases same : c = d <;> simp [unifier?, same, eq_comm]
    | var v => simp [unifier?, eq_comm]

/-- The solution of an equation leaves alone what the equation does not mention. -/
theorem unifier?_avoids {s t : Term} {δ : Substitution} (solved : s.unifier? t = some δ)
    {x : Variable} (left : s ≠ var x) (right : t ≠ var x) : δ.Avoids x := by
  obtain ⟨c, rfl, rfl, rfl⟩ | ⟨c, v, rfl, rfl, rfl⟩ | ⟨v, rfl, rfl⟩ := unifier?_eq_some.1 solved
  · exact avoids_var x
  · exact avoids_replace (fun same => right (same ▸ rfl)) (by simp)
  · exact avoids_replace (fun same => left (same ▸ rfl)) right

/-- The solution of an equation brings in no variable that the equation does not mention. -/
theorem unifier?_var {s t : Term} {δ : Substitution} (solved : s.unifier? t = some δ)
    {x y : Variable} (isVar : δ x = var y) : x = y ∨ s = var y ∨ t = var y := by
  have replaced : ∀ {v : Variable} {u : Term}, replace v u x = var y → x = y ∨ u = var y := by
    intro v u equal
    by_cases same : x = v
    · rw [same, replace_self] at equal
      exact .inr equal
    · rw [replace_of_ne u same] at equal
      exact .inl (Term.var.inj equal)
  obtain ⟨c, rfl, rfl, rfl⟩ | ⟨c, v, rfl, rfl, rfl⟩ | ⟨v, rfl, rfl⟩ := unifier?_eq_some.1 solved
  · exact .inl (Term.var.inj isVar)
  · exact (replaced isVar).imp_right .inl
  · exact (replaced isVar).imp_right .inr

/-- The solution of an equation makes both sides equal. -/
theorem unifier?_unifies {s t : Term} {δ : Substitution} (solved : s.unifier? t = some δ) :
    s.mapVariable δ = t.mapVariable δ := by
  obtain ⟨c, rfl, rfl, rfl⟩ | ⟨c, v, rfl, rfl, rfl⟩ | ⟨v, rfl, rfl⟩ := unifier?_eq_some.1 solved
  · rfl
  · rw [mapVariable_var, replace_self, mapVariable_constant]
  · rw [mapVariable_var, replace_self]
    cases t with
    | constant c => rfl
    | var w =>
      by_cases same : w = v
      · rw [same, mapVariable_var, replace_self]
      · rw [mapVariable_var, replace_of_ne _ same]

theorem after_replace {η : Substitution} {v : Variable} {t : Term}
    (unifies : t.mapVariable η = η v) : η.after (replace v t) = η := by
  funext w
  by_cases same : w = v
  · rw [Substitution.after, same, replace_self, unifies]
  · rw [Substitution.after, replace_of_ne _ same, mapVariable_var]

/-- Every solution of an equation factors through the one found. -/
theorem unifier?_mostGeneral {s t : Term} {δ η : Substitution} (solved : s.unifier? t = some δ)
    (unifies : s.mapVariable η = t.mapVariable η) : η.after δ = η := by
  obtain ⟨c, rfl, rfl, rfl⟩ | ⟨c, v, rfl, rfl, rfl⟩ | ⟨v, rfl, rfl⟩ := unifier?_eq_some.1 solved
  · exact after_var η
  · exact after_replace unifies
  · exact after_replace unifies.symm

/-- An equation without the solution sought has none. -/
theorem unifier?_complete {s t : Term} (unsolved : s.unifier? t = none) (η : Substitution) :
    s.mapVariable η ≠ t.mapVariable η := by
  unfold unifier? at unsolved
  split at unsolved <;> simp_all

end Term

/-- A solution of equations that extends what is known so far, most general among those that do. -/
def unifierFrom? (θ : Substitution) : List (Term × Term) → Option Substitution
  | [] => some θ
  | (s, t) :: rest =>
    ((s.mapVariable θ).unifier? (t.mapVariable θ)).bind fun δ => unifierFrom? (δ.after θ) rest

/-- The most general solution of equations. -/
def unifier? (equations : List (Term × Term)) : Option Substitution :=
  unifierFrom? .var equations

/-- Equations with a substitution applied to both sides. -/
def substituted (θ : Substitution) (equations : List (Term × Term)) : List (Term × Term) :=
  equations.map fun e => (e.1.mapVariable θ, e.2.mapVariable θ)

/-- Both sides of every equation become equal. -/
def Unifies (η : Substitution) (equations : List (Term × Term)) : Prop :=
  ∀ e ∈ equations, e.1.mapVariable η = e.2.mapVariable η

/-- What is known from the start may be carried into the equations. -/
theorem unifierFrom?_after (δ θ : Substitution) (equations : List (Term × Term)) :
    unifierFrom? (δ.after θ) equations =
      (unifierFrom? δ (substituted θ equations)).map (·.after θ) := by
  induction equations generalizing δ with
  | nil => rfl
  | cons e rest ih =>
    rw [unifierFrom?, substituted, List.map_cons, unifierFrom?, Term.mapVariable_mapVariable,
      Term.mapVariable_mapVariable]
    cases (e.1.mapVariable (δ.after θ)).unifier? (e.2.mapVariable (δ.after θ)) with
    | none => rfl
    | some ε =>
      rw [Option.bind_some, Option.bind_some, after_assoc]
      exact ih (ε.after δ)

@[simp] theorem unifier?_nil : unifier? [] = some .var := rfl

/-- The first equation is solved first, and its solution is carried into the others. -/
theorem unifier?_cons (s t : Term) (rest : List (Term × Term)) :
    unifier? ((s, t) :: rest) =
      (s.unifier? t).bind fun δ => (unifier? (substituted δ rest)).map (·.after δ) := by
  rw [unifier?, unifierFrom?, Term.mapVariable_id, Term.mapVariable_id]
  congr 1
  funext δ
  rw [after_var, unifier?, ← unifierFrom?_after, var_after]

theorem unifies_substituted {θ η : Substitution} {equations : List (Term × Term)} :
    Unifies η (substituted θ equations) ↔ Unifies (η.after θ) equations := by
  unfold Unifies substituted
  rw [List.forall_mem_map]
  simp only [Term.mapVariable_mapVariable]

/-- The solution found solves the equations. -/
theorem unifier?_unifies {equations : List (Term × Term)} {θ : Substitution}
    (solved : unifier? equations = some θ) : Unifies θ equations := by
  induction n : equations.length generalizing equations θ with
  | zero =>
    obtain rfl := List.length_eq_zero_iff.1 n
    simp [Unifies]
  | succ n ih =>
    obtain ⟨⟨s, t⟩, rest, rfl⟩ := List.exists_cons_of_length_eq_add_one n
    rw [unifier?_cons] at solved
    obtain ⟨δ, first, others⟩ := Option.bind_eq_some_iff.1 solved
    obtain ⟨ε, solvedRest, rfl⟩ := Option.map_eq_some_iff.1 others
    have unifiesRest := unifies_substituted.1 (ih solvedRest (by simp_all [substituted]))
    rintro e (_ | ⟨_, member⟩)
    · have equal := congrArg (Term.mapVariable ε) (Term.unifier?_unifies first)
      rwa [Term.mapVariable_mapVariable, Term.mapVariable_mapVariable] at equal
    · exact unifiesRest e member

/-- Every solution factors through the one found. -/
theorem unifier?_mostGeneral {equations : List (Term × Term)} {θ η : Substitution}
    (solved : unifier? equations = some θ) (unifies : Unifies η equations) : η.after θ = η := by
  induction n : equations.length generalizing equations θ η with
  | zero =>
    obtain rfl := List.length_eq_zero_iff.1 n
    cases solved
    exact after_var η
  | succ n ih =>
    obtain ⟨⟨s, t⟩, rest, rfl⟩ := List.exists_cons_of_length_eq_add_one n
    rw [unifier?_cons] at solved
    obtain ⟨δ, first, others⟩ := Option.bind_eq_some_iff.1 solved
    obtain ⟨ε, solvedRest, rfl⟩ := Option.map_eq_some_iff.1 others
    have factors : η.after δ = η := Term.unifier?_mostGeneral first (unifies (s, t) (by simp))
    have unifiesRest : Unifies η (substituted δ rest) := by
      rw [unifies_substituted, factors]
      exact fun e member => unifies e (List.mem_cons_of_mem _ member)
    rw [after_assoc, ih solvedRest unifiesRest (by simp_all [substituted]), factors]

/-- Equations in which no solution is found have none. -/
theorem unifier?_complete {equations : List (Term × Term)} (unsolved : unifier? equations = none)
    (η : Substitution) : ¬Unifies η equations := by
  induction n : equations.length generalizing equations η with
  | zero =>
    obtain rfl := List.length_eq_zero_iff.1 n
    simp at unsolved
  | succ n ih =>
    obtain ⟨⟨s, t⟩, rest, rfl⟩ := List.exists_cons_of_length_eq_add_one n
    intro unifies
    have equal : s.mapVariable η = t.mapVariable η := unifies (s, t) (by simp)
    rw [unifier?_cons] at unsolved
    cases first : s.unifier? t with
    | none => exact Term.unifier?_complete first η equal
    | some δ =>
      rw [first, Option.bind_some, Option.map_eq_none_iff] at unsolved
      refine ih unsolved η (by simpa [substituted] using n) ?_
      rw [unifies_substituted, Term.unifier?_mostGeneral first equal]
      exact fun e member => unifies e (List.mem_cons_of_mem _ member)

end ProofWalk
