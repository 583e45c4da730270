import ProofWalk.Proofs.Prover.Rounds

/-!
# Rounds over arrays

Power iteration over an array passes on positive amounts only: an entry that is not positive is left where it
is, and its node is not asked for links. An entry of zero has nothing to pass on. So the form makes no
difference where no amount is ever negative, which is the case if no link has a negative weight.

## Main definitions

* `PowerRound.positive` — the positive amounts
* `PowerRound.afterPositive` — rounds that pass on positive amounts only

## Main results

* `PowerRound.afterPositive_eq_after` — without negative weights these are all amounts
* `Walk.powerDense_spec` — the entries of power iteration over an array
* `Walk.powerDense_iterated` — without negative weights they are those of the form over a map
-/

namespace ProofWalk

open Finsupp

/-! ### Amounts -/

namespace PowerRound

/-- The positive amounts. -/
noncomputable def positive (f : ℕ →₀ ℝ) : ℕ →₀ ℝ := f.filter fun u => 0 < f u

/-- The amounts after a round that passes on positive amounts only. -/
noncomputable def nextPositive (alpha : ℝ) (root : Nat) (out : Nat → List (Nat × ℝ)) (f : ℕ →₀ ℝ) :
    ℕ →₀ ℝ :=
  next alpha root out (positive f)

/-- The amounts after a number of such rounds. -/
noncomputable def afterPositive (alpha : ℝ) (root : Nat) (out : Nat → List (Nat × ℝ)) (n : Nat) :
    ℕ →₀ ℝ :=
  (nextPositive alpha root out)^[n] (single root 1)

variable {alpha : ℝ} {root : Nat} {out : Nat → List (Nat × ℝ)} {f : ℕ →₀ ℝ} {S : Set Nat}

theorem mem_support_positive {u : Nat} : u ∈ (positive f).support ↔ 0 < f u := by
  rw [positive, support_filter, Finset.mem_filter, mem_support_iff]
  exact ⟨And.right, fun positive => ⟨positive.ne', positive⟩⟩

theorem positive_of_nonneg (nonneg : ∀ u, 0 ≤ f u) : positive f = f := by
  rw [positive, filter_eq_self_iff]
  exact fun u some => lt_of_le_of_ne (nonneg u) (Ne.symm some)

/-- A sum over the positive amounts is one over nodes among which they are. -/
theorem sum_positive {M : Type} [AddCommMonoid M] {nodes : List Nat} (once : nodes.Nodup)
    (all : ∀ u, 0 < f u → u ∈ nodes) {g : Nat → ℝ → M} (zero : ∀ u, g u 0 = 0) :
    (nodes.map fun u => if 0 < f u then g u (f u) else 0).sum = (positive f).sum g := by
  have among : (positive f).support ⊆ nodes.toFinset := fun u member =>
    List.mem_toFinset.2 (all u (mem_support_positive.1 member))
  rw [sum_of_support_subset _ among _ fun u _ => zero u, List.sum_toFinset _ once]
  refine congrArg List.sum (List.map_congr_left fun u _ => ?_)
  rw [positive, filter_apply]
  split
  · rfl
  · exact (zero u).symm

theorem nextPositive_mem (closed : Closed S root out) (within : f ∈ supported ℝ ℝ S) :
    nextPositive alpha root out f ∈ supported ℝ ℝ S := by
  refine next_mem closed ((mem_supported ℝ _).2 fun u member => ?_)
  have amount := mem_support_positive.1 member
  exact (mem_supported ℝ f).1 within (mem_support_iff.2 amount.ne')

/-! ### Amounts that are not negative -/

theorem share_nonneg (atMostOne : alpha ≤ 1) {links : List (Nat × ℝ)} (weights : ∀ l ∈ links, 0 ≤ l.2)
    (u : Nat) {x : ℝ} (nonneg : 0 ≤ x) : 0 ≤ share alpha links u x := by
  have left : 0 ≤ 1 - alpha := sub_nonneg.2 atMostOne
  have total : 0 ≤ (links.map (·.2)).sum := by
    refine List.sum_nonneg fun weight member => ?_
    obtain ⟨l, isLink, rfl⟩ := List.mem_map.1 member
    exact weights l isLink
  unfold share
  simp only
  split
  · exact single_nonneg.2 (mul_nonneg left nonneg)
  · refine List.sum_nonneg fun part member => ?_
    obtain ⟨l, isLink, rfl⟩ := List.mem_map.1 member
    exact single_nonneg.2 (mul_nonneg (mul_nonneg left (div_nonneg (weights l isLink) total)) nonneg)

theorem next_nonneg (nonneg : 0 ≤ alpha) (atMostOne : alpha ≤ 1) (weights : ∀ u, ∀ l ∈ out u, 0 ≤ l.2)
    (amounts : 0 ≤ f) : 0 ≤ next alpha root out f := by
  refine add_nonneg (single_nonneg.2 nonneg) (Finset.sum_nonneg fun u _ => ?_)
  exact share_nonneg atMostOne (weights u) u (amounts u)

theorem after_nonneg (nonneg : 0 ≤ alpha) (atMostOne : alpha ≤ 1) (weights : ∀ u, ∀ l ∈ out u, 0 ≤ l.2)
    (n : Nat) : 0 ≤ after alpha root out n := by
  induction n with
  | zero => exact single_nonneg.2 zero_le_one
  | succ n ih =>
    rw [after_succ]
    exact next_nonneg nonneg atMostOne weights ih

/-- Without negative weights no amount is negative, and all are passed on. -/
theorem afterPositive_eq_after (nonneg : 0 ≤ alpha) (atMostOne : alpha ≤ 1)
    (weights : ∀ u, ∀ l ∈ out u, 0 ≤ l.2) (n : Nat) :
    afterPositive alpha root out n = after alpha root out n := by
  induction n with
  | zero => rfl
  | succ n ih =>
    rw [after_succ, afterPositive, Function.iterate_succ_apply', ← afterPositive, ih, nextPositive,
      positive_of_nonneg (after_nonneg nonneg atMostOne weights n)]

end PowerRound

/-! ### Walks -/

namespace Walk

variable {Γ : Type} [Walkable Γ] [KnowsLinks Γ] [LawfulWalkable Γ] {w : Weighting ℝ} {alpha : ℝ}
  {s s' : Session Γ}

/-- A walk that ends has made its graph grow. -/
def MakesGrow {α : Type} (x : Walk Γ α) : Prop := ∀ s a s', x s = (.ok a, s') → Grows s.graph s'.graph

/-- All walks make their graphs grow. -/
theorem closed_makesGrow (w : Weighting ℝ) : Closed (fun _ => MakesGrow (Γ := Γ)) w where
  pure a s a' s' done := by
    cases done
    exact .refl _
  throw e s a s' failed := by cases failed
  bind first next s b s' done := by
    obtain ⟨a, s₁, ran, behind⟩ := bind_eq_ok done
    exact (first s a s₁ ran).trans (next a s₁ b s' behind)
  start s u s' done := by
    cases done
    exact .refl _
  degree u s d s' done := (degree_known done).1
  weighLinks u s shown s' done := (weighLinks_known done).1

/-- An entry moves along the links of its node if it is positive. -/
theorem spreadDense_spec {next next' : Array ℝ} {u : Nat} {x : ℝ}
    (done : (spreadDense w alpha next u x : Walk Γ _) s = (.ok next', s')) :
    Grows s.graph s'.graph ∧ (x ≤ 0 ∧ next' = next ∨ 0 < x ∧ ∃ links, outOf w s'.graph u = some links ∧
      arrayFinsupp next' = arrayFinsupp next + PowerRound.share alpha links u x) := by
  unfold spreadDense at done
  split at done
  next least =>
    obtain ⟨rfl, rfl⟩ := pure_eq_ok done
    exact ⟨.refl _, .inl ⟨least, rfl⟩⟩
  next positive =>
    obtain ⟨⟨links, total⟩, s₁, weighs, moved⟩ := bind_eq_ok done
    obtain ⟨grows, rfl, shown, known, rfl⟩ := weighLinks_known weighs
    set links := weighed w shown
    have isLinks : outOf w s₁.graph u = some links := by rw [outOf, known]; rfl
    simp only at moved
    split at moved
    next weightless =>
      obtain ⟨rfl, rfl⟩ := pure_eq_ok moved
      refine ⟨grows, .inr ⟨not_le.1 positive, links, isLinks, ?_⟩⟩
      rw [arrayFinsupp_addAt, PowerRound.share_of_weightless (eq_of_beq weightless)]
    next total =>
      obtain ⟨rfl, rfl⟩ := pure_eq_ok moved
      refine ⟨grows, .inr ⟨not_le.1 positive, links, isLinks, ?_⟩⟩
      rw [PowerRound.share_of_weight fun zero => total (beq_iff_eq.2 zero), arrayFinsupp_foldl_addAt]
      -- the two forms take the product in different orders
      refine congrArg (_ + ·) (congrArg List.sum (List.map_congr_left fun l _ => ?_))
      rw [mul_comm x (1 - alpha), mul_right_comm]

/-- Nodes in turn: those with positive entries are asked for their links and add their shares. -/
theorem foldlM_spreadDense {nodes : List Nat} {amount : Nat → ℝ} {next next' : Array ℝ}
    (done : (nodes.foldlM (fun next u => spreadDense w alpha next u (amount u)) next : Walk Γ _) s =
      (.ok next', s')) :
    Grows s.graph s'.graph ∧ (∀ u ∈ nodes, 0 < amount u → (outOf w s'.graph u).isSome) ∧
      ∀ g, Grows s'.graph g → arrayFinsupp next' = arrayFinsupp next +
        (nodes.map fun u => if 0 < amount u then PowerRound.share alpha (outlinks w g u) u (amount u)
          else 0).sum := by
  induction nodes generalizing next s with
  | nil =>
    obtain ⟨rfl, rfl⟩ := pure_eq_ok done
    exact ⟨.refl _, fun _ member => absurd member List.not_mem_nil, fun g grows => (add_zero _).symm⟩
  | cons u rest ih =>
    rw [List.foldlM_cons] at done
    obtain ⟨next₁, s₁, first, behind⟩ := bind_eq_ok done
    obtain ⟨grows, step⟩ := spreadDense_spec first
    obtain ⟨grows', asked, others⟩ := ih behind
    refine ⟨grows.trans grows', fun v member positive => ?_, fun g more => ?_⟩
    · rcases List.mem_cons.1 member with rfl | member
      · obtain ⟨least, -⟩ | ⟨-, links, known, -⟩ := step
        · exact absurd positive (not_lt.2 least)
        · rw [outOf_of_grows grows' known, Option.isSome_some]
      · exact asked v member positive
    · rw [others g more, List.map_cons, List.sum_cons, ← add_assoc]
      congr 1
      obtain ⟨least, rfl⟩ | ⟨positive, links, known, isNext⟩ := step
      · rw [if_neg (not_lt.2 least), add_zero]
      · have isLinks := outlinks_of_outOf (outOf_of_grows (grows'.trans more) known)
        rw [if_pos positive, isLinks, isNext]

/-- A round over an array adds the shares of its positive entries, if they are at nodes that are not before
the start. -/
theorem roundDense_spec {a a' : Array ℝ}
    (within : arrayFinsupp a ∈ supported ℝ ℝ {u | Walkable.start s.graph ≤ u})
    (done : (roundDense w alpha a : Walk Γ _) s = (.ok a', s')) :
    Grows s.graph s'.graph ∧ (∀ u, 0 < arrayFinsupp a u → (outOf w s'.graph u).isSome) ∧
      ∀ g, Grows s'.graph g → arrayFinsupp a' =
        PowerRound.nextPositive alpha (Walkable.start s.graph) (outlinks w g) (arrayFinsupp a) := by
  obtain ⟨root, s₁, started, spreads⟩ := bind_eq_ok done
  cases started
  obtain ⟨grows, asked, spread⟩ := foldlM_spreadDense spreads
  have isVisited {u : Nat} (positive : 0 < arrayFinsupp a u) :
      u ∈ (List.range a.size).filter (Walkable.start s.graph ≤ ·) := by
    have member := mem_support_iff.2 positive.ne'
    rw [List.mem_filter, List.mem_range]
    exact ⟨Finset.mem_range.1 (support_onFinset_subset member),
      decide_eq_true ((mem_supported ℝ _).1 within member)⟩
  refine ⟨grows, fun u positive => asked u (isVisited positive) positive, fun g more => ?_⟩
  rw [spread g more, arrayFinsupp_putAt, arrayFinsupp_empty, erase_zero, zero_add, PowerRound.nextPositive,
    PowerRound.next, ← PowerRound.sum_positive (List.nodup_range.filter _) (fun u => isVisited)
      fun u => PowerRound.share_zero alpha _ u]
  rfl

/-- A number of rounds over an array. All that is positive before one of them is asked for its links. -/
theorem roundsDense_spec (n : Nat) {a a' : Array ℝ}
    (done : (roundsDense w alpha n a : Walk Γ _) s = (.ok a', s'))
    (closed : PowerRound.Closed {u | Walkable.start s.graph ≤ u} (Walkable.start s.graph)
      (outlinks w s'.graph))
    (within : arrayFinsupp a ∈ supported ℝ ℝ {u | Walkable.start s.graph ≤ u}) :
    Grows s.graph s'.graph ∧
      arrayFinsupp a' =
        (PowerRound.nextPositive alpha (Walkable.start s.graph) (outlinks w s'.graph))^[n] (arrayFinsupp a) ∧
      ∀ m < n, ∀ u, 0 < (PowerRound.nextPositive alpha (Walkable.start s.graph) (outlinks w s'.graph))^[m]
        (arrayFinsupp a) u → (outOf w s'.graph u).isSome := by
  induction n generalizing a s with
  | zero =>
    obtain ⟨rfl, rfl⟩ := pure_eq_ok done
    exact ⟨.refl _, rfl, fun m none => absurd none (Nat.not_lt_zero m)⟩
  | succ n ih =>
    obtain ⟨a₁, s₁, first, behind⟩ := bind_eq_ok done
    obtain ⟨grows, asked, isFirst⟩ := roundDense_spec within first
    have grows' := (closed_makesGrow w).roundsDense alpha n a₁ s₁ a' s' behind
    have within₁ : PowerRound.nextPositive alpha (Walkable.start s.graph) (outlinks w s'.graph)
        (arrayFinsupp a) ∈ supported ℝ ℝ {u | Walkable.start s.graph ≤ u} :=
      PowerRound.nextPositive_mem closed within
    rw [← isFirst _ grows', ← grows.start] at within₁
    obtain ⟨-, others, asked'⟩ := ih behind (grows.start ▸ closed) within₁
    rw [isFirst _ grows', grows.start] at others asked'
    refine ⟨grows.trans grows', others, fun m less u positive => ?_⟩
    cases m with
    | zero =>
      obtain ⟨links, known⟩ := Option.isSome_iff_exists.1 (asked u positive)
      rw [outOf_of_grows grows' known, Option.isSome_some]
    | succ m => exact asked' m (Nat.lt_of_succ_lt_succ less) u positive

/-- The entries of power iteration over an array, if no link leads to a node before the start. All that is
positive before the last round has been asked for its links. -/
theorem powerDense_spec {o : WalkOptions ℝ} {a : Array ℝ}
    (done : (powerDense w o : Walk Γ _) s = (.ok a, s'))
    (closed : PowerRound.Closed {u | Walkable.start s'.graph ≤ u} (Walkable.start s'.graph)
      (outlinks w s'.graph)) :
    arrayFinsupp a =
        PowerRound.afterPositive o.alpha (Walkable.start s'.graph) (outlinks w s'.graph) o.maxDepth ∧
      ∀ n < o.maxDepth, ∀ u, 0 < PowerRound.afterPositive o.alpha (Walkable.start s'.graph)
        (outlinks w s'.graph) n u → (outOf w s'.graph u).isSome := by
  have grows := (closed_makesGrow w).powerDense o s a s' done
  rw [grows.start] at closed ⊢
  obtain ⟨root, s₁, started, ran⟩ := bind_eq_ok done
  cases started
  have first : arrayFinsupp (putAt #[] (Walkable.start s.graph) 1) =
      single (Walkable.start s.graph) (1 : ℝ) := by
    rw [arrayFinsupp_putAt, arrayFinsupp_empty, erase_zero, zero_add]
  have within := single_mem_supported ℝ (1 : ℝ) closed.root
  rw [← first] at within
  obtain ⟨-, spec, asked⟩ := roundsDense_spec _ ran closed within
  rw [first] at spec asked
  exact ⟨spec, asked⟩

/-- Without negative weights power iteration over an array comes to the amounts that power iteration over a
map comes to. -/
theorem powerDense_iterated {o : WalkOptions ℝ} {a : Array ℝ}
    (done : (powerDense w o : Walk Γ _) s = (.ok a, s'))
    (closed : PowerRound.Closed {u | Walkable.start s'.graph ≤ u} (Walkable.start s'.graph)
      (outlinks w s'.graph))
    (nonneg : 0 ≤ o.alpha) (atMostOne : o.alpha ≤ 1) (weights : ∀ f, 0 ≤ w.weight f) :
    Iterated w o s'.graph (arrayFinsupp a) := by
  have links (u : Nat) : ∀ l ∈ outlinks w s'.graph u, 0 ≤ l.2 := outlinks_nonneg weights _ u
  obtain ⟨spec, asked⟩ := powerDense_spec done closed
  rw [PowerRound.afterPositive_eq_after nonneg atMostOne links] at spec
  refine ⟨spec, fun n early u member => asked n early u ?_⟩
  rw [PowerRound.afterPositive_eq_after nonneg atMostOne links]
  exact lt_of_le_of_ne (PowerRound.after_nonneg nonneg atMostOne links n u)
    (mem_support_iff.1 member).symm

end Walk

end ProofWalk
