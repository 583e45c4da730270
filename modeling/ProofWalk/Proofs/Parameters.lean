import Mathlib.Data.List.Induction
import ProofWalk.Parameters.Basic

/-!
# Weights and their clocks

What each change of parameters does to the weights and to the clocks that can be read from them.

## Main definitions

* `Parameters.Like` — equal weights, and equal clocks where clocks count
* `Parameters.Steady` — no feature is new and no clock has moved

## Main results

* `Parameters.get?_set`, `Parameters.get?_adjust` — only the weight of the feature changes
* `Parameters.touched_touch` — only the clock of the feature moves, and only forward
* `Parameters.mem_names`, `Parameters.nodup_names` — every feature with a weight is named once
* `Parameters.mem_toList`, `Parameters.get?_ofList` — parameters as pairs
-/

namespace ProofWalk

namespace Parameters

section
variable {K : Type} {p : Parameters K} {name other : String} {weight : K} {clock : Nat}

@[simp] theorem contains_eq_isSome : p.contains name = (p.get? name).isSome := by
  rw [contains, get?, Option.isSome_map, Std.TreeMap.contains_eq_isSome_getElem?]

@[simp] theorem get?_empty : (empty : Parameters K).get? name = none := by
  rw [get?, empty, Std.TreeMap.getElem?_emptyc]
  rfl

@[simp] theorem touched_empty : (empty : Parameters K).touched name = 0 := by
  rw [touched, empty, Std.TreeMap.getElem?_emptyc]
  rfl

@[simp] theorem get?_set :
    (p.set name weight).get? other = if other = name then some weight else p.get? other := by
  simp only [get?, set, Std.TreeMap.getElem?_alter, Std.compare_eq_iff_eq, eq_comm (a := name)]
  split
  next same =>
    subst same
    cases p.slots[other]? <;> rfl
  next => rfl

@[simp] theorem touched_set : (p.set name weight).touched other = p.touched other := by
  simp only [touched, set, Std.TreeMap.getElem?_alter, Std.compare_eq_iff_eq]
  split
  next same =>
    subst same
    cases p.slots[name]? <;> rfl
  next => rfl

@[simp] theorem get?_touch : (p.touch name clock).get? other = p.get? other := by
  simp only [get?, touch, Std.TreeMap.getElem?_alter, Std.compare_eq_iff_eq]
  split
  next same =>
    subst same
    cases p.slots[name]? <;> rfl
  next => rfl

theorem touched_touch :
    (p.touch name clock).touched other =
      if other = name ∧ (p.get? name).isSome then max (p.touched name) clock
      else p.touched other := by
  simp only [touched, get?, touch, Std.TreeMap.getElem?_alter, Std.compare_eq_iff_eq,
    eq_comm (a := name), Option.isSome_map]
  by_cases same : other = name
  · subst same
    cases p.slots[other]? <;> simp
  · simp [same]

@[simp] theorem get?_insertIfAbsent :
    (p.insertIfAbsent name weight).get? other =
      if other = name ∧ p.get? name = none then some weight else p.get? other := by
  rw [insertIfAbsent, contains_eq_isSome]
  cases found : p.get? name <;> by_cases same : other = name <;> simp [same, found]

@[simp] theorem touched_insertIfAbsent :
    (p.insertIfAbsent name weight).touched other = p.touched other := by
  rw [insertIfAbsent]
  split
  · rfl
  · exact touched_set

theorem mem_names : name ∈ p.names ↔ (p.get? name).isSome := by
  rw [names, Std.TreeMap.mem_keys, ← Std.TreeMap.contains_iff_mem, ← contains_eq_isSome, contains]

theorem nodup_names : p.names.Nodup := Std.TreeMap.nodup_keys

/-- Changing each of some weights once. -/
theorem get?_foldl_update {names : List String} (once : names.Nodup) (initial : K) (f : K → K) :
    (names.foldl (fun p name => p.update name initial f) p).get? other =
      if other ∈ names then some (f (p.getD other initial)) else p.get? other := by
  induction names generalizing p with
  | nil => rfl
  | cons name names ih =>
    obtain ⟨isNew, once⟩ := List.nodup_cons.1 once
    rw [List.foldl_cons, ih once, getD, update, get?_set]
    by_cases own : other = name
    · rw [if_neg (own ▸ isNew), if_pos own, if_pos (own ▸ List.mem_cons_self), own]
    · rw [if_neg own]
      simp only [List.mem_cons, own, false_or]
      rfl

end

section
variable {K : Type} [Scalar K] {p : Parameters K} {name other : String} {delta : K}

@[simp] theorem get?_adjust :
    (p.adjust name delta).get? other =
      if other = name then some (p.getD name 0 + delta) else p.get? other :=
  get?_set

@[simp] theorem touched_adjust : (p.adjust name delta).touched other = p.touched other :=
  touched_set

end

/-! ### Pairs of names and weights -/

section
variable {K : Type} {p : Parameters K} {name : String} {weight : K}

theorem mem_toList : (name, weight) ∈ p.toList ↔ p.get? name = some weight := by
  rw [toList, List.mem_map, get?, Option.map_eq_some_iff]
  constructor
  · rintro ⟨⟨name, slot⟩, member, equal⟩
    cases equal
    exact ⟨slot, Std.TreeMap.mem_toList_iff_getElem?_eq_some.1 member, rfl⟩
  · rintro ⟨slot, found, rfl⟩
    exact ⟨(name, slot), Std.TreeMap.mem_toList_iff_getElem?_eq_some.2 found, rfl⟩

theorem nodup_map_fst_toList (p : Parameters K) : (p.toList.map (·.1)).Nodup := by
  rw [toList, List.map_map, List.nodup_iff_pairwise_ne, List.pairwise_map]
  exact Std.TreeMap.distinct_keys_toList.imp fun differ same => differ (Std.compare_eq_iff_eq.2 same)

/-- The parameters of pairs with different names are those of the pairs. -/
theorem get?_ofList {entries : List (String × K)} (distinct : (entries.map (·.1)).Nodup) :
    (ofList entries).get? name = some weight ↔ (name, weight) ∈ entries := by
  induction entries using List.reverseRecOn with
  | nil => simp [ofList]
  | append_singleton entries entry ih =>
    rw [List.map_append, List.nodup_append] at distinct
    obtain ⟨before, -, apart⟩ := distinct
    have last : ofList (entries ++ [entry]) = (ofList entries).set entry.1 entry.2 := by
      rw [ofList, List.foldl_append]
      rfl
    rw [last, get?_set, List.mem_append, List.mem_singleton]
    split
    · rename_i own
      subst own
      have isNew : (entry.1, weight) ∉ entries := fun member =>
        apart _ (List.mem_map_of_mem member) _ (List.mem_singleton_self _) rfl
      rw [or_iff_right isNew, Option.some.injEq, Prod.ext_iff]
      exact ⟨fun same => ⟨rfl, same.symm⟩, fun same => same.2.symm⟩
    · rename_i other
      rw [ih before, or_iff_left fun same => other (congrArg Prod.fst same)]

theorem touched_ofList (entries : List (String × K)) (name : String) :
    (ofList entries).touched name = 0 := by
  induction entries using List.reverseRecOn with
  | nil => exact touched_empty
  | append_singleton entries entry ih =>
    rw [ofList, List.foldl_append]
    exact touched_set.trans ih

end

/-! ### Equal weights -/

/-- Two parameters hold the same weights, and the same clocks where clocks count. -/
structure Like {K : Type} (clocks : Bool) (p p' : Parameters K) : Prop where
  weight : ∀ f, p.get? f = p'.get? f
  clock : clocks = true → ∀ f, p.touched f = p'.touched f

namespace Like

variable {K : Type} {clocks : Bool} {p p' : Parameters K}

protected theorem refl : Like clocks p p := ⟨fun _ => rfl, fun _ _ => rfl⟩

theorem getD (like : Like clocks p p') (f : String) (default : K) : p.getD f default = p'.getD f default := by
  rw [Parameters.getD, Parameters.getD, like.weight]

theorem contains (like : Like clocks p p') (f : String) : p.contains f = p'.contains f := by
  rw [contains_eq_isSome, contains_eq_isSome, like.weight]

/-- The features come in the order of their names, so there is one list of them. -/
theorem names (like : Like clocks p p') : p.names = p'.names := by
  have same : p.names.Perm p'.names := (List.perm_ext_iff_of_nodup nodup_names nodup_names).2 fun f => by
    rw [mem_names, mem_names, like.weight]
  refine same.eq_of_pairwise (fun a b _ _ before after => ?_) Std.TreeMap.ordered_keys
    Std.TreeMap.ordered_keys
  exact absurd after (Std.OrientedCmp.not_lt_of_lt before)

theorem set (like : Like clocks p p') (f : String) (w : K) : Like clocks (p.set f w) (p'.set f w) where
  weight g := by rw [get?_set, get?_set, like.weight]
  clock counts g := by rw [touched_set, touched_set, like.clock counts]

theorem touch (like : Like clocks p p') (f : String) (clock : Nat) :
    Like clocks (p.touch f clock) (p'.touch f clock) where
  weight g := by rw [get?_touch, get?_touch, like.weight]
  clock counts g := by
    rw [touched_touch, touched_touch, like.weight, like.clock counts, like.clock counts]

theorem insertIfAbsent (like : Like clocks p p') (f : String) (w : K) :
    Like clocks (p.insertIfAbsent f w) (p'.insertIfAbsent f w) where
  weight g := by rw [get?_insertIfAbsent, get?_insertIfAbsent, like.weight, like.weight]
  clock counts g := by rw [touched_insertIfAbsent, touched_insertIfAbsent, like.clock counts]

theorem adjust [Scalar K] (like : Like clocks p p') (f : String) (delta : K) :
    Like clocks (p.adjust f delta) (p'.adjust f delta) where
  weight g := by rw [get?_adjust, get?_adjust, like.getD, like.weight]
  clock counts g := by rw [touched_adjust, touched_adjust, like.clock counts]

end Like

/-- Other weights for the same features, with the same clocks. -/
structure Steady {K : Type} (p q : Parameters K) : Prop where
  isSome : ∀ f, (q.get? f).isSome = (p.get? f).isSome
  touched : ∀ f, q.touched f = p.touched f

namespace Steady

variable {K : Type} {p q r : Parameters K} {f : String}

protected theorem refl : p.Steady p := ⟨fun _ => rfl, fun _ => rfl⟩

protected theorem trans (first : p.Steady q) (second : q.Steady r) : p.Steady r where
  isSome f := (second.isSome f).trans (first.isSome f)
  touched f := (second.touched f).trans (first.touched f)

theorem set (present : (p.get? f).isSome) (w : K) : p.Steady (p.set f w) where
  isSome g := by
    rw [get?_set]
    split
    next own => rw [own, present, Option.isSome_some]
    next => rfl
  touched _ := touched_set

end Steady

end Parameters

end ProofWalk
