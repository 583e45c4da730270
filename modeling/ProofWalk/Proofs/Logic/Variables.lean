import ProofWalk.Logic.Basic
import Mathlib.Data.List.Nodup
import Mathlib.Tactic.Tauto

/-!
# Lists of variables

Variables in order of first occurrence are the same variables, each once, and a list of variables has
a number above all its serials.

## Main definitions

* `serialBound` — a number above all serials of variables
* `Variable.shift` — the variable with its serial moved up
-/

namespace ProofWalk

theorem mem_firstOccurrences {vs : List Variable} {v : Variable} :
    v ∈ firstOccurrences vs ↔ v ∈ vs := by
  have step : ∀ (vs seen : List Variable),
      v ∈ vs.foldl (fun seen v => if v ∈ seen then seen else seen ++ [v]) seen ↔
        v ∈ seen ∨ v ∈ vs := by
    intro vs
    induction vs with
    | nil => simp
    | cons w vs ih =>
      intro seen
      rw [List.foldl_cons, ih]
      by_cases met : w ∈ seen
      · rw [if_pos met, List.mem_cons]
        constructor
        · tauto
        · rintro (known | rfl | later) <;> tauto
      · rw [if_neg met, List.mem_append, List.mem_singleton, List.mem_cons, or_assoc]
  exact (step vs []).trans (by simp)

theorem nodup_firstOccurrences (vs : List Variable) : (firstOccurrences vs).Nodup := by
  have step : ∀ (vs seen : List Variable), seen.Nodup →
      (vs.foldl (fun seen v => if v ∈ seen then seen else seen ++ [v]) seen).Nodup := by
    intro vs
    induction vs with
    | nil => exact fun seen nodup => nodup
    | cons w vs ih =>
      intro seen nodup
      rw [List.foldl_cons]
      refine ih _ ?_
      split
      · exact nodup
      · rename_i unmet
        exact nodup.append (List.nodup_singleton w) (List.disjoint_singleton.2 unmet)
  exact step vs [] List.nodup_nil

theorem Query.mem_vars_of_goal {q : Query} {g : Goal} (member : g ∈ q.goals) {v : Variable}
    (occurs : v ∈ g.vars) : v ∈ q.vars :=
  mem_firstOccurrences.2 (List.mem_flatMap.2 ⟨g, member, occurs⟩)

/-! ### Values side by side with variables -/

theorem lookup_zip_map {f : Variable → Term} {vs : List Variable} {v : Variable} (member : v ∈ vs) :
    (vs.zip (vs.map f)).lookup v = some (f v) := by
  induction vs with
  | nil => cases member
  | cons w vs ih =>
    rw [List.map_cons, List.zip_cons_cons, List.lookup_cons]
    by_cases same : v = w
    · simp [same]
    · rw [beq_false_of_ne same]
      exact ih (List.mem_of_ne_of_mem same member)

theorem lookup_zip_map_right {α : Type} {f : Term → α} {vs : List Variable} {ts : List Term}
    (v : Variable) : (vs.zip (ts.map f)).lookup v = ((vs.zip ts).lookup v).map f := by
  induction vs generalizing ts with
  | nil => rfl
  | cons w vs ih =>
    cases ts with
    | nil => rfl
    | cons t ts =>
      rw [List.map_cons, List.zip_cons_cons, List.zip_cons_cons, List.lookup_cons, List.lookup_cons]
      cases v == w with
      | true => rfl
      | false => exact ih

theorem exists_lookup_zip {α : Type} {vs : List Variable} {xs : List α} (length : xs.length = vs.length)
    {v : Variable} (member : v ∈ vs) : ∃ x ∈ xs, (vs.zip xs).lookup v = some x := by
  induction vs generalizing xs with
  | nil => cases member
  | cons w vs ih =>
    obtain ⟨x, xs, rfl⟩ := List.exists_cons_of_length_eq_add_one length
    rw [List.zip_cons_cons, List.lookup_cons]
    by_cases same : v = w
    · exact ⟨x, List.mem_cons_self, by rw [same, beq_self_eq_true]⟩
    · obtain ⟨y, isValue, found⟩ := ih (Nat.succ.inj length) (List.mem_of_ne_of_mem same member)
      exact ⟨y, List.mem_cons_of_mem x isValue, by rw [beq_false_of_ne same, found]⟩

/-- Values of distinct variables are told by what is looked up. -/
theorem eq_of_lookup_zip {α : Type} {vs : List Variable} (nodup : vs.Nodup) {xs ys : List α}
    (length : xs.length = vs.length) (length' : ys.length = vs.length)
    (same : ∀ v ∈ vs, (vs.zip xs).lookup v = (vs.zip ys).lookup v) : xs = ys := by
  induction vs generalizing xs ys with
  | nil => rw [List.length_eq_zero_iff.1 length, List.length_eq_zero_iff.1 length']
  | cons w vs ih =>
    obtain ⟨x, xs, rfl⟩ := List.exists_cons_of_length_eq_add_one length
    obtain ⟨y, ys, rfl⟩ := List.exists_cons_of_length_eq_add_one length'
    obtain ⟨apart, nodup⟩ := List.nodup_cons.1 nodup
    have first := same w List.mem_cons_self
    rw [List.zip_cons_cons, List.zip_cons_cons, List.lookup_cons_self, List.lookup_cons_self] at first
    have others : xs = ys := ih nodup (Nat.succ.inj length) (Nat.succ.inj length') fun v member => by
      have behind := same v (List.mem_cons_of_mem w member)
      have other : v ≠ w := fun isFirst => apart (isFirst ▸ member)
      rwa [List.zip_cons_cons, List.zip_cons_cons, List.lookup_cons, List.lookup_cons,
        beq_false_of_ne other] at behind
    rw [Option.some.inj first, others]

/-! ### Serials -/

/-- A number above all serials of variables. -/
def serialBound (vs : List Variable) : Nat := vs.foldl (fun bound v => max bound (v.serial + 1)) 0

theorem serial_lt_serialBound {vs : List Variable} {v : Variable} (member : v ∈ vs) :
    v.serial < serialBound vs := by
  have step : ∀ (vs : List Variable) (bound : Nat),
      bound ≤ vs.foldl (fun bound v => max bound (v.serial + 1)) bound ∧
        ∀ v ∈ vs, v.serial < vs.foldl (fun bound v => max bound (v.serial + 1)) bound := by
    intro vs
    induction vs with
    | nil => simp
    | cons w vs ih =>
      intro bound
      obtain ⟨below, each⟩ := ih (max bound (w.serial + 1))
      rw [List.foldl_cons]
      refine ⟨by omega, ?_⟩
      rintro v (_ | ⟨_, member⟩)
      · omega
      · exact each v member
  exact (step vs 0).2 v member

/-- The variable with its serial moved up. -/
def Variable.shift (offset : Nat) (v : Variable) : Variable :=
  { v with serial := v.serial + offset }

theorem Variable.shift_injective (offset : Nat) : Function.Injective (Variable.shift offset) := by
  rintro ⟨name, serial⟩ ⟨name', serial'⟩ equal
  obtain ⟨rfl, same⟩ := Variable.mk.inj equal
  obtain rfl : serial = serial' := by simpa using same
  rfl

end ProofWalk
