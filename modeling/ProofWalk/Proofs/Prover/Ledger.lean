import Mathlib.LinearAlgebra.Finsupp.LinearCombination
import ProofWalk.Proofs.Exact
import ProofWalk.Prover.Queue

/-!
# Ledgers

The mass of a walk as two functions of finite support, whether it is kept in maps or in arrays. All
forms of a push do the same to it, and so do all forms of settling all the residual of a node. Maps and
arrays answer alike: a node that has been given nothing has zero.

## Main definitions

* `Scores.Tells`, `SparseMass.Agrees` — a map and an array with the same amounts
* `Ledger` — settled and residual mass
* `Ledger.push`, `Ledger.absorb` — what a push does
* `SparseMass.ledger`, `DenseMass.ledger` — the ledgers of the two forms

## Main results

* `Scores.at_insert`, `entryAt_putAt`, `entryAt_addAt` — the amounts after a change
* `SparseMass.ledger_push`, `DenseMass.ledger_push`, `DenseMass.ledger_pushAll` — the forms of a push
-/

namespace ProofWalk

/-! ### Amounts at nodes -/

section

variable {K : Type} [Scalar K]

theorem Scores.at_insert (s : Scores K) (u v : Nat) (x : K) :
    Scores.at (s.insert u x) v = if v = u then x else s.at v := by
  rw [Scores.at, Std.TreeMap.getElem?_insert]
  by_cases same : v = u
  · simp [same]
  · rw [if_neg same, if_neg (by simpa using Ne.symm same), Scores.at]

theorem Scores.at_add (s : Scores K) (u v : Nat) (x : K) :
    Scores.at (s.add u x) v = if v = u then s.at u + x else s.at v :=
  s.at_insert u v _

/-- Filling up with zeros changes no entry. -/
theorem entryAt_filled (a : Array K) (n v : Nat) :
    entryAt (a ++ Array.replicate n 0) v = entryAt a v := by
  rw [entryAt, entryAt, Array.getElem?_append]
  split
  · rfl
  · rename_i outside
    rw [Array.getElem?_eq_none (Nat.le_of_not_lt outside), Array.getElem?_replicate]
    split <;> rfl

theorem entryAt_set {a : Array K} {u : Nat} (inside : u < a.size) (v : Nat) (x : K) :
    entryAt (a.setIfInBounds u x) v = if v = u then x else entryAt a v := by
  rw [entryAt]
  split
  · rename_i same
    rw [same, Array.getElem?_setIfInBounds_self_of_lt inside]
    rfl
  · rename_i other
    rw [Array.getElem?_setIfInBounds_ne (Ne.symm other), entryAt]

theorem entryAt_modify {a : Array K} {u : Nat} (inside : u < a.size) (v : Nat) (x : K) :
    entryAt (a.modify u (· + x)) v = if v = u then entryAt a u + x else entryAt a v := by
  rw [entryAt, Array.getElem?_modify]
  split
  · rename_i same
    rw [if_pos same.symm, same, entryAt, Array.getElem?_eq_getElem (same ▸ inside)]
    rfl
  · rename_i other
    rw [if_neg (Ne.symm other), entryAt]

theorem lt_size_filled (a : Array K) (u : Nat) :
    u < (a ++ Array.replicate (u + 1 - a.size) 0).size := by
  rw [Array.size_append, Array.size_replicate]
  omega

theorem entryAt_putAt (a : Array K) (u v : Nat) (x : K) :
    entryAt (putAt a u x) v = if v = u then x else entryAt a v := by
  rw [putAt, entryAt_set (lt_size_filled a u), entryAt_filled]

theorem entryAt_addAt (a : Array K) (u v : Nat) (x : K) :
    entryAt (addAt a u x) v = if v = u then entryAt a u + x else entryAt a v := by
  rw [addAt, entryAt_modify (lt_size_filled a u), entryAt_filled, entryAt_filled]

/-- A map and an array with the same amount at every node. -/
def Scores.Tells (s : Scores K) (a : Array K) : Prop := ∀ u, s.at u = entryAt a u

namespace Scores.Tells

variable {s : Scores K} {a : Array K}

theorem empty : Tells (∅ : Scores K) #[] := by
  intro u
  rw [Scores.at, Std.TreeMap.getElem?_emptyc]
  rfl

theorem put (tells : s.Tells a) (u : Nat) (x : K) : Tells (s.insert u x) (putAt a u x) := by
  intro v
  rw [Scores.at_insert, entryAt_putAt, tells v]

theorem add (tells : s.Tells a) (u : Nat) (x : K) : Tells (s.add u x) (addAt a u x) := by
  intro v
  rw [Scores.at_add, entryAt_addAt, tells u, tells v]

/-- Giving parts to nodes in turn keeps the amounts the same. -/
theorem give (part : K → K) (links : List (Nat × K)) (tells : s.Tells a) :
    Tells
      (links.foldl (fun s (v, weight) => if weight == 0 then s else s.add v (part weight)) s)
      (links.foldl (fun a (v, weight) => if weight == 0 then a else addAt a v (part weight)) a) := by
  induction links generalizing s a with
  | nil => exact tells
  | cons l rest ih =>
    obtain ⟨v, weight⟩ := l
    rw [List.foldl_cons, List.foldl_cons]
    refine ih ?_
    simp only
    split
    · exact tells
    · exact tells.add v _

end Scores.Tells

/-- Mass in maps and mass in arrays have the same amounts settled and residual at every node. -/
structure SparseMass.Agrees (m : SparseMass K) (m' : DenseMass K) : Prop where
  settled : m.settled.Tells m'.settled
  residual : m.residual.Tells m'.residual

end

/-! ### Ledgers -/

open Finsupp

/-- Settled and residual mass; all but finitely many nodes have none. -/
structure Ledger where
  settled : ℕ →₀ ℝ
  residual : ℕ →₀ ℝ

namespace Ledger

/-- What a push of `u` passes on along links of the given total weight. -/
noncomputable def passed (o : WalkOptions ℝ) (links : List (Nat × ℝ)) (total r : ℝ) : ℕ →₀ ℝ :=
  (links.map fun l => single l.1 ((1 - o.alpha) * (1 - o.stay) * (l.2 / total) * r)).sum

/-- The ledger after a push. -/
noncomputable def push (o : WalkOptions ℝ) (u : Nat) (links : List (Nat × ℝ)) (total : ℝ)
    (l : Ledger) : Ledger :=
  let r := l.residual u
  { settled := l.settled + single u (o.alpha * r)
    residual :=
      l.residual.erase u + single u ((1 - o.alpha) * o.stay * r) + passed o links total r }

/-- The ledger after all the residual of a node has settled. -/
noncomputable def absorb (u : Nat) (l : Ledger) : Ledger :=
  { settled := l.settled + single u (l.residual u), residual := l.residual.erase u }

theorem passed_cons (o : WalkOptions ℝ) (l : Nat × ℝ) (links : List (Nat × ℝ)) (total r : ℝ) :
    passed o (l :: links) total r =
      single l.1 ((1 - o.alpha) * (1 - o.stay) * (l.2 / total) * r) + passed o links total r := by
  rw [passed, List.map_cons, List.sum_cons, passed]

/-- A node that no link with a weight leads to is passed nothing. -/
theorem passed_eq_zero {o : WalkOptions ℝ} {links : List (Nat × ℝ)} {total r : ℝ} {v : Nat}
    (untouched : ∀ l ∈ links, l.1 = v → l.2 = 0) : passed o links total r v = 0 := by
  induction links with
  | nil => rfl
  | cons l rest ih =>
    rw [passed_cons, Finsupp.add_apply, ih fun other member => untouched other (by simp [member]),
      add_zero]
    by_cases same : l.1 = v
    · rw [untouched l (by simp) same, zero_div, mul_zero, zero_mul, single_zero]
      rfl
    · exact single_eq_of_ne (Ne.symm same)

/-- A push changes the residual of its node and of those that its links lead to. -/
theorem residual_push_of_ne {o : WalkOptions ℝ} {u v : Nat} {links : List (Nat × ℝ)} {total : ℝ}
    (l : Ledger) (other : v ≠ u) (untouched : ∀ l ∈ links, l.1 = v → l.2 = 0) :
    (l.push o u links total).residual v = l.residual v := by
  rw [push, Finsupp.add_apply, Finsupp.add_apply, passed_eq_zero untouched, erase_ne other,
    single_eq_of_ne other, add_zero, add_zero]

end Ledger

/-! ### Maps -/

namespace Scores

/-- Scores as a function. -/
noncomputable def toFinsupp (s : Scores ℝ) : ℕ →₀ ℝ :=
  onFinset s.keys.toFinset s.at fun u positive => by
    rw [List.mem_toFinset, Std.TreeMap.mem_keys, Std.TreeMap.mem_iff_isSome_getElem?]
    cases found : s[u]? with
    | none => exact absurd (by rw [Scores.at, found]; rfl) positive
    | some x => rfl

@[simp] theorem toFinsupp_apply (s : Scores ℝ) (u : Nat) : s.toFinsupp u = s.at u := rfl

theorem toFinsupp_empty : toFinsupp (∅ : Scores ℝ) = 0 := by
  ext v
  rw [toFinsupp_apply, Scores.at, Std.TreeMap.getElem?_emptyc]
  rfl

theorem toFinsupp_insert (s : Scores ℝ) (u : Nat) (x : ℝ) :
    toFinsupp (s.insert u x) = s.toFinsupp.erase u + single u x := by
  ext v
  rw [toFinsupp_apply, Scores.at_insert, Finsupp.add_apply]
  split
  · rename_i same
    rw [same, erase_same, single_eq_same, zero_add]
  · rename_i other
    rw [erase_ne other, single_eq_of_ne other, add_zero, toFinsupp_apply]

theorem toFinsupp_add (s : Scores ℝ) (u : Nat) (x : ℝ) :
    toFinsupp (s.add u x) = s.toFinsupp + single u x := by
  rw [Scores.add, toFinsupp_insert, single_add, ← add_assoc, ← toFinsupp_apply, erase_add_single]

theorem toFinsupp_foldl_add (part : Nat × ℝ → ℝ) (links : List (Nat × ℝ)) (s : Scores ℝ) :
    toFinsupp (links.foldl (fun s l => s.add l.1 (part l)) s) =
      s.toFinsupp + (links.map fun l => single l.1 (part l)).sum := by
  induction links generalizing s with
  | nil => exact (add_zero _).symm
  | cons l rest ih =>
    rw [List.foldl_cons, ih, toFinsupp_add, List.map_cons, List.sum_cons, add_assoc]

/-- What has a score other than zero is an entry. -/
theorem exists_mem_toList {s : Scores ℝ} {u : Nat} (member : u ∈ s.toFinsupp.support) :
    ∃ x, (u, x) ∈ s.toList := by
  rw [mem_support_iff, toFinsupp_apply, Scores.at] at member
  cases found : s[u]? with
  | none => exact absurd (by rw [found]; rfl) member
  | some x => exact ⟨x, Std.TreeMap.mem_toList_iff_getElem?_eq_some.2 found⟩

/-- A sum over the entries of a map is a sum over what it is as a function. -/
theorem sum_toList {M : Type} [AddCommMonoid M] (s : Scores ℝ) {f : Nat → ℝ → M}
    (zero : ∀ u, f u 0 = 0) : (s.toList.map fun entry => f entry.1 entry.2).sum = s.toFinsupp.sum f := by
  have entries : s.keys.map (fun u => f u (s.at u)) = s.toList.map fun entry => f entry.1 entry.2 := by
    rw [← Std.TreeMap.map_fst_toList_eq_keys, List.map_map]
    refine List.map_congr_left fun entry member => ?_
    have found := Std.TreeMap.mem_toList_iff_getElem?_eq_some.1 member
    rw [Function.comp_apply, Scores.at, found]
    rfl
  rw [toFinsupp, onFinset_sum _ zero, ← entries]
  exact (List.sum_toFinset _ Std.TreeMap.nodup_keys).symm

end Scores

/-! ### Arrays -/

/-- An array as a function. -/
noncomputable def arrayFinsupp (a : Array ℝ) : ℕ →₀ ℝ :=
  onFinset (Finset.range a.size) (entryAt a) fun u positive => by
    rw [Finset.mem_range]
    by_contra outside
    exact positive (by rw [entryAt, Array.getElem?_eq_none (Nat.le_of_not_lt outside)]; rfl)

@[simp] theorem arrayFinsupp_apply (a : Array ℝ) (u : Nat) : arrayFinsupp a u = entryAt a u := rfl

theorem arrayFinsupp_empty : arrayFinsupp #[] = 0 := rfl

/-- Filling up with zeros changes no entry. -/
theorem arrayFinsupp_filled (a : Array ℝ) (n : Nat) :
    arrayFinsupp (a ++ Array.replicate n 0) = arrayFinsupp a := by
  ext v
  exact entryAt_filled a n v

theorem arrayFinsupp_set {a : Array ℝ} {u : Nat} (inside : u < a.size) (x : ℝ) :
    arrayFinsupp (a.setIfInBounds u x) = (arrayFinsupp a).erase u + single u x := by
  ext v
  rw [arrayFinsupp_apply, entryAt_set inside, Finsupp.add_apply]
  split
  · rename_i same
    rw [same, erase_same, single_eq_same, zero_add]
  · rename_i other
    rw [erase_ne other, single_eq_of_ne other, add_zero, arrayFinsupp_apply]

theorem arrayFinsupp_modify {a : Array ℝ} {u : Nat} (inside : u < a.size) (x : ℝ) :
    arrayFinsupp (a.modify u (· + x)) = arrayFinsupp a + single u x := by
  ext v
  rw [arrayFinsupp_apply, entryAt_modify inside, Finsupp.add_apply, arrayFinsupp_apply]
  split
  · rename_i same
    rw [same, single_eq_same]
  · rename_i other
    rw [single_eq_of_ne other, add_zero]

theorem arrayFinsupp_putAt (a : Array ℝ) (u : Nat) (x : ℝ) :
    arrayFinsupp (putAt a u x) = (arrayFinsupp a).erase u + single u x := by
  rw [putAt, arrayFinsupp_set (lt_size_filled a u), arrayFinsupp_filled]

theorem arrayFinsupp_addAt (a : Array ℝ) (u : Nat) (x : ℝ) :
    arrayFinsupp (addAt a u x) = arrayFinsupp a + single u x := by
  rw [addAt, arrayFinsupp_modify (lt_size_filled a u), arrayFinsupp_filled]

theorem arrayFinsupp_foldl_addAt (part : Nat × ℝ → ℝ) (links : List (Nat × ℝ)) (a : Array ℝ) :
    arrayFinsupp (links.foldl (fun a l => addAt a l.1 (part l)) a) =
      arrayFinsupp a + (links.map fun l => single l.1 (part l)).sum := by
  induction links generalizing a with
  | nil => exact (add_zero _).symm
  | cons l rest ih =>
    rw [List.foldl_cons, ih, arrayFinsupp_addAt, List.map_cons, List.sum_cons, add_assoc]

/-! ### The forms of a push -/

section

variable (o : WalkOptions ℝ) (u : Nat) (links : List (Nat × ℝ)) (total : ℝ)

/-- The ledger of mass in maps. -/
noncomputable def SparseMass.ledger (m : SparseMass ℝ) : Ledger :=
  { settled := m.settled.toFinsupp, residual := m.residual.toFinsupp }

/-- The ledger of mass in arrays. -/
noncomputable def DenseMass.ledger (m : DenseMass ℝ) : Ledger :=
  { settled := arrayFinsupp m.settled, residual := arrayFinsupp m.residual }

/-- Giving every link its part passes on all of it. -/
private theorem view_foldl {S : Type} (view : S → ℕ →₀ ℝ) {give : S → Nat × ℝ → S} {r : ℝ}
    (gives : ∀ s l, view (give s l) =
      view s + single l.1 ((1 - o.alpha) * (1 - o.stay) * (l.2 / total) * r)) (s : S) :
    view (links.foldl give s) = view s + Ledger.passed o links total r := by
  induction links generalizing s with
  | nil => exact (add_zero _).symm
  | cons l rest ih => rw [List.foldl_cons, ih, Ledger.passed_cons, ← add_assoc, gives]

private theorem toFinsupp_give (r : ℝ) (residual : Scores ℝ) (l : Nat × ℝ) :
    Scores.toFinsupp (if l.2 == 0 then residual
      else residual.add l.1 ((1 - o.alpha) * (1 - o.stay) * (l.2 / total) * r)) =
      residual.toFinsupp + single l.1 ((1 - o.alpha) * (1 - o.stay) * (l.2 / total) * r) := by
  by_cases weightless : l.2 = 0
  · simp [weightless]
  · simp [weightless, Scores.toFinsupp_add]

private theorem arrayFinsupp_give (r : ℝ) (residual : Array ℝ) (l : Nat × ℝ) :
    arrayFinsupp (if l.2 == 0 then residual
      else addAt residual l.1 ((1 - o.alpha) * (1 - o.stay) * (l.2 / total) * r)) =
      arrayFinsupp residual + single l.1 ((1 - o.alpha) * (1 - o.stay) * (l.2 / total) * r) := by
  by_cases weightless : l.2 = 0
  · simp [weightless]
  · simp [weightless, arrayFinsupp_addAt]

theorem SparseMass.ledger_push (m : SparseMass ℝ) :
    (m.push o u links total (m.residual.at u)).ledger = m.ledger.push o u links total := by
  rw [SparseMass.push, SparseMass.ledger, Ledger.push, Scores.toFinsupp_add,
    view_foldl o links total _ (toFinsupp_give o total _), Scores.toFinsupp_insert]
  rfl

theorem SparseMass.ledger_absorb (m : SparseMass ℝ) :
    (m.absorb u).ledger = m.ledger.absorb u := by
  rw [SparseMass.absorb, SparseMass.ledger, Ledger.absorb, Scores.toFinsupp_add,
    Scores.toFinsupp_insert, single_zero, add_zero]
  rfl

theorem DenseMass.ledger_push (m : DenseMass ℝ) :
    (m.push o u links total (entryAt m.residual u)).ledger = m.ledger.push o u links total := by
  rw [DenseMass.push, DenseMass.ledger, Ledger.push, arrayFinsupp_addAt,
    view_foldl o links total _ (arrayFinsupp_give o total _), arrayFinsupp_putAt]
  rfl

theorem DenseMass.ledger_pushAll (m : DenseMass ℝ) :
    (m.pushAll o u links total (entryAt m.residual u)).ledger = m.ledger.push o u links total := by
  rw [DenseMass.pushAll, DenseMass.ledger, Ledger.push, arrayFinsupp_addAt,
    view_foldl o links total _ fun _ _ => arrayFinsupp_addAt _ _ _, arrayFinsupp_putAt]
  rfl

theorem DenseMass.ledger_absorb (m : DenseMass ℝ) :
    (m.absorb u).ledger = m.ledger.absorb u := by
  rw [DenseMass.absorb, DenseMass.ledger, Ledger.absorb, arrayFinsupp_addAt, arrayFinsupp_putAt,
    single_zero, add_zero]
  rfl

end

end ProofWalk
