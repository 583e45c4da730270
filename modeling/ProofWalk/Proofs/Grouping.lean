import Mathlib.Data.List.Basic
import Mathlib.Data.List.Nodup

/-!
# Lists in groups

The elements of a list can be put into groups by a key, group by group or by a stable sort. Either way the
elements of one key stay in their order.

## Main results

* `flatMap_filter_perm`, `filter_flatMap_key` — collecting the elements key by key
* `pairwise_mergeSort_key`, `filter_mergeSort_key` — sorting by a number
* `filter_of_sorted` — in a sorted list the elements of a key stand together
-/

namespace ProofWalk

variable {α κ : Type} [DecidableEq κ]

/-- Collecting the elements key by key rearranges them. -/
theorem flatMap_filter_perm (key : α → κ) {keys : List κ} (nodup : keys.Nodup) {as : List α}
    (known : ∀ a ∈ as, key a ∈ keys) : (keys.flatMap fun k => as.filter fun a => key a = k).Perm as := by
  induction keys generalizing as with
  | nil =>
    have empty : as = [] := List.eq_nil_iff_forall_not_mem.2 fun a member => by
      simpa using known a member
    rw [empty]
    exact .refl _
  | cons k keys ih =>
    obtain ⟨new, distinct⟩ := List.nodup_cons.1 nodup
    set others := as.filter fun a => !decide (key a = k)
    have rest : (keys.flatMap fun j => as.filter fun a => key a = j) =
        keys.flatMap fun j => others.filter fun a => key a = j := by
      refine List.flatMap_congr fun j member => ?_
      rw [List.filter_filter]
      refine List.filter_congr fun a _ => ?_
      by_cases here : key a = j
      · have differs : key a ≠ k := fun same => new (same ▸ here ▸ member)
        simp [decide_eq_true here, decide_eq_false differs]
      · simp [decide_eq_false here]
    rw [List.flatMap_cons, rest]
    refine ((ih distinct fun a member => ?_).append_left _).trans (List.filter_append_perm _ _)
    obtain ⟨old, differs⟩ := List.mem_filter.1 member
    exact List.mem_of_ne_of_mem (by simpa using differs) (known a old)

/-- Where the elements with a property are kept in their order, a rearrangement does not change them. -/
theorem filter_eq_of_sublist {p : α → Bool} {as as' : List α} (perm : as'.Perm as)
    (kept : (as.filter p).Sublist as') : as'.filter p = as.filter p := by
  have inside := kept.filter p
  rw [List.filter_filter] at inside
  simp only [Bool.and_self] at inside
  exact (inside.eq_of_length (perm.filter p).length_eq.symm).symm

/-- Collecting key by key leaves the elements of one key in their order. -/
theorem filter_flatMap_key (key : α → κ) {keys : List κ} (nodup : keys.Nodup) {as : List α}
    (known : ∀ a ∈ as, key a ∈ keys) (k : κ) :
    (keys.flatMap fun j => as.filter fun a => key a = j).filter (fun a => key a = k) =
      as.filter fun a => key a = k := by
  refine filter_eq_of_sublist (flatMap_filter_perm key nodup known) ?_
  by_cases isKey : k ∈ keys
  · exact List.sublist_flatten_of_mem (List.mem_map.2 ⟨k, isKey, rfl⟩)
  · have none : as.filter (fun a => key a = k) = [] := by
      rw [List.filter_eq_nil_iff]
      exact fun a member here => isKey (of_decide_eq_true here ▸ known a member)
    rw [none]
    exact List.nil_sublist _

/-! ### Sorting -/

variable {key : α → Nat}

private theorem le_trans_key (a b c : α) (first : decide (key a ≤ key b) = true)
    (second : decide (key b ≤ key c) = true) : decide (key a ≤ key c) = true :=
  decide_eq_true (Nat.le_trans (of_decide_eq_true first) (of_decide_eq_true second))

private theorem le_total_key (a b : α) : (decide (key a ≤ key b) || decide (key b ≤ key a)) = true := by
  rw [Bool.or_eq_true, decide_eq_true_eq, decide_eq_true_eq]
  exact Nat.le_total _ _

theorem pairwise_mergeSort_key (key : α → Nat) (as : List α) :
    (as.mergeSort fun a b => key a ≤ key b).Pairwise fun a b => key a ≤ key b :=
  (List.pairwise_mergeSort le_trans_key le_total_key as).imp of_decide_eq_true

/-- Sorting by a key keeps the elements of one key in their order. -/
theorem filter_mergeSort_key (key : α → Nat) (as : List α) (k : Nat) :
    (as.mergeSort fun a b => key a ≤ key b).filter (fun a => key a == k) =
      as.filter fun a => key a == k := by
  refine filter_eq_of_sublist (List.mergeSort_perm _ _) ?_
  refine List.sublist_mergeSort le_trans_key le_total_key ?_ List.filter_sublist
  refine List.pairwise_of_forall_mem_list fun a left b right => ?_
  rw [eq_of_beq (List.mem_filter.1 left).2, eq_of_beq (List.mem_filter.1 right).2]
  exact decide_eq_true (Nat.le_refl _)

/-- In the order of keys the elements of a key stand together. -/
theorem filter_of_sorted {as : List α} (sorted : as.Pairwise fun a b => key a ≤ key b) (k : Nat) :
    as = as.filter (fun a => decide (key a < k)) ++ as.filter (fun a => key a == k) ++
      as.filter fun a => decide (k < key a) := by
  induction sorted with
  | nil => rfl
  | @cons a rest first _ ih =>
    simp only [List.filter_cons]
    rcases Nat.lt_trichotomy (key a) k with before | here | behind
    · have other : ¬key a = k := by omega
      have notBehind : ¬k < key a := by omega
      simp only [before, other, notBehind, decide_true, decide_false, beq_iff_eq, if_true, if_false,
        List.cons_append, Bool.false_eq_true]
      exact congrArg _ ih
    · have none : rest.filter (fun a => decide (key a < k)) = [] := by
        rw [List.filter_eq_nil_iff]
        intro other member
        have above := first other member
        simp only [decide_eq_true_eq]
        omega
      rw [none] at ih
      have notBefore : ¬key a < k := by omega
      have notBehind : ¬k < key a := by omega
      simp only [here, Nat.lt_irrefl, none, beq_self_eq_true, decide_false, if_true, if_false,
        List.nil_append, List.cons_append, Bool.false_eq_true]
      exact congrArg _ ih
    · have none : rest.filter (fun a => decide (key a < k)) = [] ∧
          rest.filter (fun a => key a == k) = [] := by
        rw [List.filter_eq_nil_iff, List.filter_eq_nil_iff]
        constructor
        all_goals
          intro other member
          have above := first other member
          simp only [decide_eq_true_eq, beq_iff_eq]
          omega
      rw [none.1, none.2] at ih
      have notBefore : ¬key a < k := by omega
      have other : ¬key a = k := by omega
      simp only [notBefore, other, behind, none.1, none.2, decide_true, decide_false, beq_iff_eq, if_true,
        if_false, List.nil_append, Bool.false_eq_true]
      exact congrArg _ ih

end ProofWalk
