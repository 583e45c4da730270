import Mathlib.Data.String.Basic
import ProofWalk.FeatureMap

/-!
# Weights in a feature map

A feature map lists its names in order and each once. It is read by name; setting a weight or adding to
one leaves the others as they are, and merging a list of names and weights adds up, for each name, its
weights in their order.

## Main definitions

* `FeatureMap.Ordered` — the names stand in order
* `FeatureMap.weightsOf` — what a list of names and weights holds for a name

## Main results

* `FeatureMap.lookup_merge` — what is read after a list has been merged
* `FeatureMap.lookup_merge_merge` — what is read if the list has been merged into a map of its own before
-/

namespace ProofWalk

namespace FeatureMap

variable {m added : FeatureMap} {name other : String}

/-- The names stand in order, each once. -/
def Ordered (m : FeatureMap) : Prop := m.Pairwise (·.1 < ·.1)

theorem ordered_nil : Ordered [] := .nil

theorem name_mem_alter {f : Option Float → Float} {entry : String × Float}
    (member : entry ∈ m.alter name f) : entry.1 = name ∨ ∃ old ∈ m, entry.1 = old.1 := by
  induction m with
  | nil =>
    rw [alter, List.mem_singleton] at member
    exact .inl (congrArg Prod.fst member)
  | cons first rest ih =>
    obtain ⟨n, w⟩ := first
    unfold alter at member
    split at member
    · rename_i same
      rcases List.mem_cons.1 member with rfl | later
      · exact .inl same
      · exact .inr ⟨entry, List.mem_cons_of_mem _ later, rfl⟩
    · split at member
      · rcases List.mem_cons.1 member with rfl | later
        · exact .inl rfl
        · exact .inr ⟨entry, later, rfl⟩
      · rcases List.mem_cons.1 member with rfl | later
        · exact .inr ⟨(n, w), List.mem_cons_self .., rfl⟩
        · rcases ih later with isNew | ⟨old, isOld, same⟩
          · exact .inl isNew
          · exact .inr ⟨old, List.mem_cons_of_mem _ isOld, same⟩

theorem Ordered.alter (ordered : m.Ordered) (name : String) (f : Option Float → Float) :
    (m.alter name f).Ordered := by
  induction m with
  | nil => exact List.pairwise_singleton ..
  | cons first rest ih =>
    obtain ⟨n, w⟩ := first
    obtain ⟨least, behind⟩ := List.pairwise_cons.1 ordered
    unfold FeatureMap.alter
    split
    · exact List.pairwise_cons.2 ⟨least, behind⟩
    · rename_i differs
      split
      · rename_i before
        apply List.pairwise_cons.2
        refine ⟨?_, ordered⟩
        rintro entry (_ | ⟨_, later⟩)
        · exact before
        · exact lt_trans before (least entry later)
      · rename_i notBefore
        apply List.pairwise_cons.2
        refine ⟨?_, ih behind⟩
        intro entry member
        rcases name_mem_alter member with isNew | ⟨old, isOld, same⟩
        · rw [isNew]
          exact lt_of_le_of_ne (not_lt.1 notBefore) differs
        · rw [same]
          exact least old isOld

/-- A name before all others is not in the map. -/
theorem lookup_eq_none_of_lt (least : ∀ entry ∈ m, name < entry.1) : m.lookup name = none := by
  induction m with
  | nil => rfl
  | cons first rest ih =>
    obtain ⟨n, w⟩ := first
    have before : name < n := least _ (List.mem_cons_self ..)
    rw [List.lookup_cons, beq_false_of_ne (ne_of_lt before)]
    exact ih fun entry member => least entry (List.mem_cons_of_mem _ member)

/-- Only the weight of the name changes. -/
theorem lookup_alter (ordered : m.Ordered) (name other : String) (f : Option Float → Float) :
    (m.alter name f).lookup other = if other = name then some (f (m.lookup name)) else m.lookup other := by
  induction m with
  | nil =>
    rw [alter, List.lookup_cons]
    by_cases same : other = name
    · simp [same]
    · simp [beq_false_of_ne same, same]
  | cons first rest ih =>
    obtain ⟨n, w⟩ := first
    obtain ⟨least, behind⟩ := List.pairwise_cons.1 ordered
    unfold alter
    split
    · rename_i isName
      subst isName
      simp only [List.lookup_cons]
      by_cases same : other = n
      · simp [same]
      · simp [beq_false_of_ne same, same]
    · rename_i differs
      split
      · rename_i before
        have absent : ((n, w) :: rest).lookup name = none := by
          apply lookup_eq_none_of_lt
          rintro entry (_ | ⟨_, later⟩)
          · exact before
          · exact lt_trans before (least entry later)
        rw [absent, List.lookup_cons]
        by_cases same : other = name
        · simp [same]
        · simp [beq_false_of_ne same, same]
      · rw [List.lookup_cons, List.lookup_cons, List.lookup_cons, ih behind]
        by_cases isFirst : other = n
        · subst isFirst
          simp [differs]
        · rw [beq_false_of_ne isFirst, beq_false_of_ne (Ne.symm differs)]

/-! ### Merging -/

theorem Ordered.merge (ordered : m.Ordered) (added : FeatureMap) : (m.merge added).Ordered := by
  unfold FeatureMap.merge
  induction added generalizing m with
  | nil => exact ordered
  | cons first rest ih => exact ih (ordered.alter _ _)

theorem merge_append (m first second : FeatureMap) : m.merge (first ++ second) = (m.merge first).merge second :=
  List.foldl_append

/-- The weights that a list of names and weights holds for a name, in their order. -/
def weightsOf (name : String) (added : FeatureMap) : List Float :=
  (added.filter (·.1 = name)).map (·.2)

/-- What is read of a name before and after weights for it have been added. -/
def total (before : Option Float) : List Float → Option Float
  | [] => before
  | w :: ws => some (ws.foldl (· + ·) (before.getD 0 + w))

theorem weightsOf_cons (name other : String) (w : Float) (added : FeatureMap) :
    weightsOf name ((other, w) :: added) =
      if other = name then w :: weightsOf name added else weightsOf name added := by
  unfold weightsOf
  by_cases same : other = name
  · rw [List.filter_cons_of_pos (by simpa using same), if_pos same, List.map_cons]
  · rw [List.filter_cons_of_neg (by simpa using same), if_neg same]

/-- The weights of a name are added up in their order. -/
theorem lookup_merge (ordered : m.Ordered) (added : FeatureMap) (name : String) :
    (m.merge added).lookup name = total (m.lookup name) (weightsOf name added) := by
  induction added generalizing m with
  | nil => rfl
  | cons first rest ih =>
    obtain ⟨other, w⟩ := first
    have added : (m.add other w).Ordered := ordered.alter other _
    have step : m.merge ((other, w) :: rest) = (m.add other w).merge rest := rfl
    rw [step, ih added, add, lookup_alter ordered, weightsOf_cons]
    by_cases same : other = name
    · subst same
      rw [if_pos rfl, if_pos rfl]
      cases weightsOf other rest <;> rfl
    · rw [if_neg same, if_neg (Ne.symm same)]

/-- A map holds one weight for a name, or none. -/
theorem weightsOf_ordered (ordered : m.Ordered) (name : String) :
    weightsOf name m = (m.lookup name).toList := by
  induction m with
  | nil => rfl
  | cons first rest ih =>
    obtain ⟨n, w⟩ := first
    obtain ⟨least, behind⟩ := List.pairwise_cons.1 ordered
    rw [weightsOf_cons, List.lookup_cons, ih behind]
    by_cases same : n = name
    · subst same
      rw [if_pos rfl, lookup_eq_none_of_lt least]
      simp
    · rw [if_neg same, beq_false_of_ne (Ne.symm same)]

/-- Names and weights that are first added up by themselves. -/
theorem lookup_merge_merge (ordered : m.Ordered) (added : FeatureMap) (name : String) :
    (m.merge (merge [] added)).lookup name = match weightsOf name added with
      | [] => m.lookup name
      | ws => some ((m.lookup name).getD 0 + ws.foldl (· + ·) 0) := by
  have isOrdered : (merge [] added).Ordered := ordered_nil.merge added
  rw [lookup_merge ordered, weightsOf_ordered isOrdered, lookup_merge ordered_nil]
  cases weightsOf name added <;> rfl

end FeatureMap

end ProofWalk
