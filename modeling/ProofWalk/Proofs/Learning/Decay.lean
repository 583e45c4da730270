import Mathlib.Tactic.FieldSimp
import ProofWalk.Proofs.Exact
import ProofWalk.Proofs.Learning.Regularizers

/-!
# Decay in one go

A regularizer that looks at one weight at a time decays it by any number of steps as by the same steps
one after the other. Softening stops at zero and stays there; contraction multiplies by powers.

Two regularizers look at the neighbours of a weight too. Each first moves the weight by a closed form for all
steps at once and then softens it, so the two parts do not alternate as they would step by step. Smoothing
alone adds up. With softening, steps one after the other smooth away a part of what was taken off before;
while the weight stays above zero this part is `m rate mu (1 - a ^ n)`. The group steps hold on to the norm
that they start with, which shrinks along the way: taken at once they leave no more of a weight than one after
the other, and as much if the neighbours weigh nothing.

## Main definitions

* `Regularizer.IsPlain` — a regularizer that looks at one weight at a time
* `Regularizer.decayed` — what a number of steps leaves of a weight
* `Regularizer.smoothed`, `Regularizer.grouped` — what smoothing and group steps leave of a weight
* `Regularizer.decayedBeside` — what a number of steps leaves of a weight, given those of its neighbours

## Main results

* `Regularizer.decayed_add` — steps add up
* `Regularizer.IsPlain.decay_eq`, `Regularizer.IsPlain.get?_decay` — a decay changes the weight of its own
  feature only
* `Schedule.get?_decayAll` — the synchronous decay takes one step for every trainable weight
* `Regularizer.get?_decay`, `Regularizer.get?_decay_decay` — one decay and two, with all other weights held
  fixed
* `Regularizer.decayedBeside_laplacian_add`, `Regularizer.decayedBeside_laplacian` — smoothing steps add up,
  and how far apart they are with softening
* `Regularizer.abs_decayedBeside_groupLasso_le` — group steps at once leave no more
* `Regularizer.decayedBeside_groupLasso_add` — group steps add up beside neighbours without weight
-/

namespace ProofWalk

namespace Regularizer

/-- The regularizers that look at one weight at a time. -/
inductive IsPlain {K : Type} : Regularizer K → Prop
  | none : IsPlain .none
  | l1 (mu : K) : IsPlain (.l1 mu)
  | l2 (mu : K) : IsPlain (.l2 mu)

/-- What a number of steps at a rate leaves of a weight, if no other weight counts. -/
noncomputable def decayed (r : Regularizer ℝ) (rate : ℝ) (steps : Nat) (w : ℝ) : ℝ :=
  match r with
  | l1 mu => soften (steps * rate * mu) w
  | l2 mu => w * Scalar.power (1 - Scalar.ofNat 2 * mu * rate) steps
  | _ => w

theorem soften_real (amount w : ℝ) :
    soften amount w = (if w < 0 then -1 else 1) * max (|w| - amount) 0 := rfl

@[simp] theorem soften_zero (w : ℝ) : soften 0 w = w := by
  rw [soften_real, sub_zero, max_eq_left (abs_nonneg w)]
  split
  next negative => rw [abs_of_neg negative]; ring
  next positive => rw [abs_of_nonneg (not_lt.1 positive), one_mul]

/-- A weight that is not negative stays so. -/
theorem soften_of_nonneg {w : ℝ} (amount : ℝ) (positive : 0 ≤ w) :
    soften amount w = max (w - amount) 0 := by
  rw [soften_real, if_neg (not_lt.2 positive), abs_of_nonneg positive, one_mul]

theorem soften_of_neg {w : ℝ} (amount : ℝ) (negative : w < 0) :
    soften amount w = -max (-w - amount) 0 := by
  rw [soften_real, if_pos negative, abs_of_neg negative, neg_one_mul]

/-- Amounts of one sign may be taken off one after the other: what has reached zero stays there. -/
theorem soften_soften {first second w : ℝ} (alike : 0 ≤ first ∧ 0 ≤ second ∨ first ≤ 0 ∧ second ≤ 0) :
    soften second (soften first w) = soften (first + second) w := by
  rcases lt_or_ge w 0 with negative | positive
  · rw [soften_of_neg first negative, soften_of_neg (first + second) negative]
    rcases lt_or_ge 0 (-w - first) with left | gone
    · rw [max_eq_left left.le, soften_of_neg second (by linarith)]
      congr 2
      ring
    · -- zero is passed, so both amounts are taken off
      have positives : 0 ≤ second := by
        rcases alike with both | both
        · exact both.2
        · linarith [both.1]
      rw [max_eq_right gone, neg_zero, soften_of_nonneg second le_rfl,
        max_eq_right (by linarith), max_eq_right (by linarith), neg_zero]
  · rw [soften_of_nonneg first positive, soften_of_nonneg (first + second) positive,
      soften_of_nonneg second (le_max_right _ _)]
    rcases le_or_gt 0 (w - first) with left | gone
    · rw [max_eq_left left]
      congr 1
      ring
    · have positives : 0 ≤ second := by
        rcases alike with both | both
        · exact both.2
        · linarith [both.1]
      rw [max_eq_right gone.le, max_eq_right (by linarith), max_eq_right (by linarith)]

@[simp] theorem decayed_zero (r : Regularizer ℝ) (rate w : ℝ) : r.decayed rate 0 w = w := by
  cases r <;> simp [decayed, Scalar.power]

theorem map_decayed_zero (r : Regularizer ℝ) (rate : ℝ) (weight : Option ℝ) :
    weight.map (r.decayed rate 0) = weight := by
  cases weight with
  | none => rfl
  | some w => rw [Option.map_some, decayed_zero]

/-- Steps add up. -/
theorem decayed_add (r : Regularizer ℝ) (rate : ℝ) (m n : Nat) (w : ℝ) :
    r.decayed rate n (r.decayed rate m w) = r.decayed rate (m + n) w := by
  cases r with
  | l1 mu =>
    have alike : 0 ≤ m * rate * mu ∧ 0 ≤ n * rate * mu ∨ m * rate * mu ≤ 0 ∧ n * rate * mu ≤ 0 := by
      have some : (0 : ℝ) ≤ m := m.cast_nonneg
      have more : (0 : ℝ) ≤ n := n.cast_nonneg
      simp only [mul_assoc]
      rcases le_total 0 (rate * mu) with positive | negative
      · exact .inl ⟨mul_nonneg some positive, mul_nonneg more positive⟩
      · exact .inr ⟨mul_nonpos_of_nonneg_of_nonpos some negative,
          mul_nonpos_of_nonneg_of_nonpos more negative⟩
    simp only [decayed, soften_soften alike]
    congr 1
    push_cast
    ring
  | l2 mu =>
    simp only [decayed, Scalar.power, pow_add]
    ring
  | none | laplacian | groupLasso => rfl

variable {r : Regularizer ℝ} {p : Parameters ℝ} {feature other : String} {steps : Nat} {rate : ℝ}

/-- A decay sets the weight of its feature, or leaves it where the steps would not move it. -/
theorem IsPlain.decay_eq (plain : r.IsPlain) (p : Parameters ℝ) (feature : String) (steps : Nat)
    (rate : ℝ) :
    (r.decay p feature steps rate).2 = p ∧ (∀ w, p.get? feature = some w → r.decayed rate steps w = w) ∨
      ∃ w, p.get? feature = some w ∧
        (r.decay p feature steps rate).2 = p.set feature (r.decayed rate steps w) := by
  cases found : p.get? feature with
  | none =>
    refine .inl ⟨?_, by simp⟩
    cases plain <;> simp [decay, shrink, contract, found]
  | some w =>
    cases plain with
    | none => exact .inl ⟨rfl, fun _ _ => rfl⟩
    | l1 mu =>
      by_cases still : steps = 0 ∨ mu = 0
      · refine .inl ⟨by rcases still with still | still <;> simp [decay, shrink, found, still], ?_⟩
        rcases still with still | still <;> simp [decayed, still]
      · obtain ⟨moves, strong⟩ := not_or.1 still
        refine .inr ⟨w, rfl, ?_⟩
        simp [decay, shrink, found, decayed, moves, strong, Scalar.isFinite, Scalar.ofNat_real]
    | l2 mu =>
      by_cases still : steps = 0 ∨ mu = 0
      · refine .inl ⟨by rcases still with still | still <;> simp [decay, contract, found, still], ?_⟩
        rcases still with still | still <;> simp [decayed, Scalar.power, still]
      · obtain ⟨moves, strong⟩ := not_or.1 still
        refine .inr ⟨w, rfl, ?_⟩
        simp [decay, contract, found, decayed, moves, strong, Scalar.power, Scalar.ofNat_real]

/-- A decay changes the weight of its own feature only. -/
theorem IsPlain.get?_decay (plain : r.IsPlain) :
    (r.decay p feature steps rate).2.get? other =
      if other = feature then (p.get? feature).map (r.decayed rate steps) else p.get? other := by
  obtain ⟨kept, still⟩ | ⟨w, found, changed⟩ := plain.decay_eq p feature steps rate
  · rw [kept]
    split
    next same =>
      subst same
      cases found : p.get? other with
      | none => rfl
      | some w => rw [Option.map_some, still w found]
    next => rfl
  · rw [changed, Parameters.get?_set, found, Option.map_some]

end Regularizer

namespace Schedule

variable {r : Regularizer ℝ} {fixed : FixedWeights} {rate : ℝ}

/-- One step for each of different features. -/
private theorem get?_foldl_decay (plain : r.IsPlain) {features : List String}
    (different : features.Nodup) (p : Parameters ℝ) (f : String) :
    (features.foldl (fun p f => (r.decay p f 1 rate).2) p).get? f =
      if f ∈ features then (p.get? f).map (r.decayed rate 1) else p.get? f := by
  induction features generalizing p with
  | nil => rfl
  | cons first rest ih =>
    obtain ⟨new, different⟩ := List.nodup_cons.1 different
    rw [List.foldl_cons, ih different, plain.get?_decay]
    by_cases same : f = first
    · subst same
      simp [new]
    · simp [same]

/-- The synchronous decay takes one step for every trainable weight. -/
theorem get?_decayAll (plain : r.IsPlain) (p : Parameters ℝ) (f : String) :
    (overFeatures (fun p f => r.decay p f 1 rate) p (trainable fixed p)).2.get? f =
      (p.get? f).map (r.decayed rate (if fixed.isFixed f then 0 else 1)) := by
  have different : (trainable fixed p).Nodup := Parameters.nodup_names.filter _
  rw [overFeatures_parameters, get?_foldl_decay plain different]
  simp only [mem_trainable]
  cases found : p.get? f with
  | none => simp
  | some w => cases held : fixed.isFixed f <;> simp

end Schedule

namespace Regularizer

/-! ### Beside neighbours -/

/-- What smoothing steps leave of a weight beside neighbours with given weights. -/
noncomputable def smoothed (zeta rate : ℝ) (others : List ℝ) (steps : Nat) (w : ℝ) : ℝ :=
  others.sum / others.length +
    (w - others.sum / others.length) * (1 - (2 : Nat) * zeta * rate * others.length) ^ steps

/-- What group steps leave of a weight beside neighbours with given weights. -/
noncomputable def grouped (zeta rate : ℝ) (others : List ℝ) (steps : Nat) (w : ℝ) : ℝ :=
  w * max (1 - steps * rate * zeta / √(w * w + (others.map fun v => v * v).sum)) 0

/-- The features that a regularizer looks at beside one, if any are listed. -/
def neighbours? {K : Type} (r : Regularizer K) (feature : String) : Option (List String) :=
  match r with
  | laplacian _ _ affinity | groupLasso _ _ affinity => affinity.neighbours? feature
  | _ => Option.none

/-- The weights of these features. -/
noncomputable def beside (r : Regularizer ℝ) (p : Parameters ℝ) (feature : String) : Option (List ℝ) :=
  (r.neighbours? feature).map fun names => names.map (p.getD · 0)

/-- What a number of steps at a rate leaves of a weight, given the weights of its neighbours. -/
noncomputable def decayedBeside (r : Regularizer ℝ) (rate : ℝ) (others : Option (List ℝ)) (steps : Nat)
    (w : ℝ) : ℝ :=
  match r with
  | laplacian mu zeta _ =>
    soften (steps * rate * mu) (others.elim w fun others => smoothed zeta rate others steps w)
  | groupLasso mu zeta _ =>
    soften (steps * rate * mu) (others.elim w fun others => grouped zeta rate others steps w)
  | _ => r.decayed rate steps w

section
variable {zeta rate w : ℝ} {others : List ℝ} {steps : Nat}

@[simp] theorem smoothed_nil : smoothed zeta rate [] steps w = w := by simp [smoothed]

@[simp] theorem smoothed_of_zeta : smoothed 0 rate others steps w = w := by simp [smoothed]

@[simp] theorem smoothed_zero : smoothed zeta rate others 0 w = w := by simp [smoothed]

@[simp] theorem grouped_of_zeta : grouped 0 rate others steps w = w := by simp [grouped]

@[simp] theorem grouped_zero : grouped zeta rate others 0 w = w := by simp [grouped]

@[simp] theorem decayedBeside_zero (r : Regularizer ℝ) (beside : Option (List ℝ)) :
    r.decayedBeside rate beside 0 w = w := by
  cases r <;> cases beside <;> simp [decayedBeside]

end

/-! ### One decay and two -/

variable {p : Parameters ℝ} {feature other : String} {steps : Nat} {rate : ℝ}

theorem get?_shrink (mu : ℝ) :
    (shrink mu p feature steps rate).2.get? other =
      if other = feature then (p.get? feature).map (soften (steps * rate * mu)) else p.get? other := by
  change (decay (.l1 mu) p feature steps rate).2.get? other = _
  exact (IsPlain.l1 mu).get?_decay

theorem get?_smooth (zeta : ℝ) (names : List String) :
    (smooth zeta names p feature steps rate).2.get? other =
      if other = feature then (p.get? feature).map (smoothed zeta rate (names.map (p.getD · 0)) steps)
      else p.get? other := by
  rw [smooth]
  cases found : p.get? feature with
  | none => split <;> simp_all
  | some w =>
    by_cases still : names = [] ∨ zeta = 0
    · rcases still with still | still <;> split <;> simp_all
    · obtain ⟨some, strong⟩ := not_or.1 still
      simp [some, strong, smoothed, Scalar.power, Scalar.ofNat_real, Scalar.sum_real]

theorem get?_shrinkGroup (zeta : ℝ) (names : List String) :
    (shrinkGroup zeta names p feature steps rate).2.get? other =
      if other = feature then (p.get? feature).map (grouped zeta rate (names.map (p.getD · 0)) steps)
      else p.get? other := by
  rw [shrinkGroup]
  cases found : p.get? feature with
  | none => split <;> simp_all
  | some w =>
    by_cases weak : zeta = 0
    · split <;> simp_all
    · have squares : Scalar.sum (names.map fun n => p.getD n 0 * p.getD n 0) =
          ((names.map (p.getD · 0)).map fun v => v * v).sum := by
        rw [Scalar.sum_real, List.map_map]
        rfl
      rw [squares]
      by_cases some : 0 < √(w * w + ((names.map (p.getD · 0)).map fun v => v * v).sum)
      · simp only [Scalar.sqrt, beq_iff_eq, weak, if_false, some, if_true, Parameters.get?_set]
        rfl
      · -- a group without weight stays where it is
        have nothing := le_antisymm (not_lt.1 some) (Real.sqrt_nonneg _)
        have kept : grouped zeta rate (names.map (p.getD · 0)) steps w = w := by
          rw [grouped, nothing, div_zero, sub_zero, max_eq_left zero_le_one, mul_one]
        simp only [Scalar.sqrt, beq_iff_eq, weak, if_false, some]
        split <;> simp_all

/-- A decay looks at the weight and at those of the neighbours, and changes the weight only. -/
theorem get?_decay (r : Regularizer ℝ) :
    (r.decay p feature steps rate).2.get? other =
      if other = feature then (p.get? feature).map (r.decayedBeside rate (r.beside p feature) steps)
      else p.get? other := by
  cases r with
  | none => exact IsPlain.none.get?_decay
  | l1 mu => exact (IsPlain.l1 mu).get?_decay
  | l2 mu => exact (IsPlain.l2 mu).get?_decay
  | laplacian mu zeta affinity | groupLasso mu zeta affinity =>
    by_cases still : steps = 0
    · subst still
      have idle : ∀ r : Regularizer ℝ, r.decayedBeside rate (r.beside p feature) 0 = id :=
        fun r => funext fun w => decayedBeside_zero r _
      rw [idle, Option.map_id_fun]
      split
      next same => simp [decay, same]
      next => simp [decay]
    · cases listed : affinity.neighbours? feature <;>
        by_cases same : other = feature <;>
        cases found : p.get? feature <;>
        simp [decay, still, listed, same, found, get?_shrink, get?_smooth, get?_shrinkGroup, beside,
          neighbours?, decayedBeside]

/-- Steps one after the other, with all other weights held fixed: a feature that is not its own neighbour
sees the same neighbours again. -/
theorem get?_decay_decay (r : Regularizer ℝ)
    (apart : ∀ names, r.neighbours? feature = some names → feature ∉ names) (m n : Nat) :
    (r.decay (r.decay p feature m rate).2 feature n rate).2.get? other =
      if other = feature then (p.get? feature).map fun w =>
        r.decayedBeside rate (r.beside p feature) n (r.decayedBeside rate (r.beside p feature) m w)
      else p.get? other := by
  have kept : r.beside (r.decay p feature m rate).2 feature = r.beside p feature := by
    rw [beside, beside]
    refine Option.map_congr fun names listed => List.map_congr_left fun name listedName => ?_
    have others : name ≠ feature := fun same => apart names listed (same ▸ listedName)
    rw [Parameters.getD, Parameters.getD, get?_decay, if_neg others]
  rw [get?_decay, kept, get?_decay, get?_decay, if_pos rfl, Option.map_map]
  split <;> rfl

/-! ### Smoothing -/

section
variable {mu zeta w : ℝ} {affinity : Affinity} {others : List ℝ}

/-- Smoothing steps add up. -/
theorem smoothed_add (zeta rate : ℝ) (others : List ℝ) (m n : Nat) (w : ℝ) :
    smoothed zeta rate others n (smoothed zeta rate others m w) = smoothed zeta rate others (m + n) w := by
  simp only [smoothed, pow_add]
  ring

/-- Without softening the steps of `laplacian` add up. -/
theorem decayedBeside_laplacian_add (zeta rate : ℝ) (affinity : Affinity) (others : Option (List ℝ))
    (m n : Nat) (w : ℝ) :
    decayedBeside (.laplacian 0 zeta affinity) rate others n
        (decayedBeside (.laplacian 0 zeta affinity) rate others m w) =
      decayedBeside (.laplacian 0 zeta affinity) rate others (m + n) w := by
  cases others <;> simp [decayedBeside, smoothed_add]

/-- While the weight stays above zero, the smoothing of the later steps takes back a part of what the earlier
ones have taken off: one after the other, the steps leave this part more than at once. -/
theorem decayedBeside_laplacian (shrinks : 0 ≤ rate * mu) {m n : Nat}
    (first : m * (rate * mu) ≤ smoothed zeta rate others m w)
    (second : n * (rate * mu) ≤
      smoothed zeta rate others n (smoothed zeta rate others m w - m * (rate * mu)))
    (atOnce : (m + n : Nat) * (rate * mu) ≤ smoothed zeta rate others (m + n) w) :
    decayedBeside (.laplacian mu zeta affinity) rate (some others) n
        (decayedBeside (.laplacian mu zeta affinity) rate (some others) m w) =
      decayedBeside (.laplacian mu zeta affinity) rate (some others) (m + n) w +
        m * (rate * mu) * (1 - (1 - 2 * zeta * rate * others.length) ^ n) := by
  have taken : ∀ {k : Nat} {v : ℝ}, k * (rate * mu) ≤ v → soften (k * rate * mu) v = v - k * (rate * mu) := by
    intro k v within
    have amount : 0 ≤ k * (rate * mu) := mul_nonneg k.cast_nonneg shrinks
    rw [mul_assoc, soften_of_nonneg _ (amount.trans within), max_eq_left (sub_nonneg.2 within)]
  simp only [decayedBeside, Option.elim_some]
  rw [taken first, taken second, taken atOnce, ← smoothed_add]
  simp only [smoothed]
  push_cast
  ring

end

/-! ### Groups -/

section
variable {c d squares v w : ℝ}

/-- What remains of a weight when its share of an amount is taken off that the whole group bears. -/
private noncomputable def groupStep (squares c w : ℝ) : ℝ := w * max (1 - c / √(w * w + squares)) 0

private theorem groupStep_neg : groupStep squares c (-w) = -groupStep squares c w := by
  rw [groupStep, groupStep, neg_mul_neg, neg_mul]

private theorem groupStep_of_nonneg (positive : 0 ≤ w) :
    groupStep squares c w = max (w - c * (w / √(w * w + squares))) 0 := by
  rw [groupStep, mul_max_of_nonneg _ _ positive, mul_zero]
  congr 1
  ring

/-- The share of a weight in the norm of its group grows with the weight. -/
private theorem share_le (others : 0 ≤ squares) (positive : 0 ≤ v) (less : v ≤ w) :
    v / √(v * v + squares) ≤ w / √(w * w + squares) := by
  rcases positive.eq_or_lt with rfl | positive
  · rw [zero_div]
    exact div_nonneg less (Real.sqrt_nonneg _)
  · have more : 0 < w := positive.trans_le less
    rw [div_le_div_iff₀ (Real.sqrt_pos.2 (by positivity)) (Real.sqrt_pos.2 (by positivity)),
      ← sq_le_sq₀ (by positivity) (by positivity), mul_pow, mul_pow, Real.sq_sqrt (by positivity),
      Real.sq_sqrt (by positivity)]
    have squared : v ^ 2 * squares ≤ w ^ 2 * squares :=
      mul_le_mul_of_nonneg_right (pow_le_pow_left₀ positive.le less 2) others
    linarith

private theorem groupStep_le (shrinks : 0 ≤ c) (positive : 0 ≤ w) : groupStep squares c w ≤ w := by
  rw [groupStep_of_nonneg positive]
  have share : 0 ≤ w / √(w * w + squares) := div_nonneg positive (Real.sqrt_nonneg _)
  exact max_le (by linarith [mul_nonneg shrinks share]) positive

/-- A group step brings weights closer to each other. -/
private theorem groupStep_sub_le (others : 0 ≤ squares) (shrinks : 0 ≤ c) (positive : 0 ≤ v) (less : v ≤ w) :
    groupStep squares c w - (w - v) ≤ groupStep squares c v := by
  rw [groupStep_of_nonneg positive, groupStep_of_nonneg (positive.trans less)]
  have share := mul_le_mul_of_nonneg_left (share_le others positive less) shrinks
  rcases le_total (w - c * (w / √(w * w + squares))) 0 with gone | left
  · rw [max_eq_right gone]
    exact le_max_of_le_right (by linarith)
  · rw [max_eq_left left]
    exact le_max_of_le_left (by linarith)

/-- An amount taken off in two goes leaves no less. -/
private theorem groupStep_add_le (others : 0 ≤ squares) (shrinks : 0 ≤ c) (shrinksMore : 0 ≤ d)
    (positive : 0 ≤ w) : groupStep squares (c + d) w ≤ groupStep squares d (groupStep squares c w) := by
  have left : 0 ≤ groupStep squares c w := by
    rw [groupStep_of_nonneg positive]
    exact le_max_right _ _
  have share := mul_le_mul_of_nonneg_left
    (share_le others left (groupStep_le shrinks positive)) shrinksMore
  have first : w - c * (w / √(w * w + squares)) ≤ groupStep squares c w := by
    rw [groupStep_of_nonneg positive]
    exact le_max_left _ _
  rw [groupStep_of_nonneg positive, groupStep_of_nonneg left]
  exact max_le_max (by linarith) le_rfl

private theorem soften_neg (shrinks : 0 ≤ c) : soften c (-w) = -soften c w := by
  rcases lt_trichotomy w 0 with negative | rfl | positive
  · rw [soften_of_neg _ negative, soften_of_nonneg _ (by linarith), neg_neg]
  · rw [neg_zero, soften_of_nonneg _ le_rfl, max_eq_right (by linarith), neg_zero]
  · rw [soften_of_neg _ (by linarith), soften_of_nonneg _ positive.le, neg_neg]

/-- A weight that bears the amount alone is softened. -/
private theorem groupStep_alone (shrinks : 0 ≤ c) : groupStep 0 c w = soften c w := by
  have above : ∀ {w : ℝ}, 0 ≤ w → groupStep 0 c w = soften c w := by
    intro w positive
    rw [groupStep_of_nonneg positive, soften_of_nonneg _ positive, add_zero, Real.sqrt_mul_self positive]
    rcases positive.eq_or_lt with rfl | positive
    · rw [zero_div, mul_zero, sub_zero, max_self, zero_sub, max_eq_right (by linarith)]
    · rw [div_self positive.ne', mul_one]
  rcases le_total 0 w with positive | negative
  · exact above positive
  · have mirrored := above (neg_nonneg.2 negative)
    rwa [groupStep_neg, soften_neg shrinks, neg_inj] at mirrored

end

section
variable {mu zeta w : ℝ} {affinity : Affinity} {others : List ℝ} {m n : Nat}

private theorem squares_nonneg (others : List ℝ) : 0 ≤ (others.map fun v => v * v).sum :=
  List.sum_nonneg fun _ listed => by
    obtain ⟨v, -, rfl⟩ := List.mem_map.1 listed
    exact mul_self_nonneg v

private theorem decayedBeside_groupLasso_eq (steps : Nat) (w : ℝ) :
    decayedBeside (.groupLasso mu zeta affinity) rate (some others) steps w =
      soften (steps * (rate * mu))
        (groupStep (others.map fun v => v * v).sum (steps * (rate * zeta)) w) := by
  rw [← mul_assoc, ← mul_assoc]
  rfl

/-- Group steps keep the sign of a weight. -/
theorem decayedBeside_groupLasso_neg (shrinks : 0 ≤ rate * mu) (steps : Nat) (w : ℝ) :
    decayedBeside (.groupLasso mu zeta affinity) rate (some others) steps (-w) =
      -decayedBeside (.groupLasso mu zeta affinity) rate (some others) steps w := by
  rw [decayedBeside_groupLasso_eq, decayedBeside_groupLasso_eq, groupStep_neg,
    soften_neg (mul_nonneg steps.cast_nonneg shrinks)]

theorem decayedBeside_groupLasso_nonneg (positive : 0 ≤ w) (steps : Nat) :
    0 ≤ decayedBeside (.groupLasso mu zeta affinity) rate (some others) steps w := by
  rw [decayedBeside_groupLasso_eq, soften_of_nonneg]
  · exact le_max_right _ _
  · rw [groupStep_of_nonneg positive]
    exact le_max_right _ _

/-- Steps at once leave no more of a weight above zero than the same steps one after the other. -/
theorem decayedBeside_groupLasso_le (shrinks : 0 ≤ rate * mu) (groups : 0 ≤ rate * zeta)
    (positive : 0 ≤ w) :
    decayedBeside (.groupLasso mu zeta affinity) rate (some others) (m + n) w ≤
      decayedBeside (.groupLasso mu zeta affinity) rate (some others) n
        (decayedBeside (.groupLasso mu zeta affinity) rate (some others) m w) := by
  simp only [decayedBeside_groupLasso_eq]
  set squares := (others.map fun v => v * v).sum
  have grows : 0 ≤ squares := squares_nonneg others
  have first : 0 ≤ m * (rate * zeta) := mul_nonneg m.cast_nonneg groups
  have second : 0 ≤ n * (rate * zeta) := mul_nonneg n.cast_nonneg groups
  have taken : 0 ≤ m * (rate * mu) := mul_nonneg m.cast_nonneg shrinks
  have nonneg : ∀ {c v : ℝ}, 0 ≤ v → 0 ≤ groupStep squares c v := fun {c v} above => by
    rw [groupStep_of_nonneg above]
    exact le_max_right _ _
  have halfway : 0 ≤ groupStep squares (m * (rate * zeta)) w := nonneg positive
  set x := groupStep squares (m * (rate * zeta)) w
  have atOnce : groupStep squares ((m + n : Nat) * (rate * zeta)) w ≤
      groupStep squares (n * (rate * zeta)) x := by
    rw [Nat.cast_add, add_mul]
    exact groupStep_add_le grows first second positive
  have between : 0 ≤ max (x - m * (rate * mu)) 0 := le_max_right _ _
  rw [soften_of_nonneg _ (nonneg positive), soften_of_nonneg _ halfway,
    soften_of_nonneg _ (nonneg between)]
  refine max_le_max ?_ le_rfl
  push_cast at atOnce ⊢
  rcases le_total (x - m * (rate * mu)) 0 with gone | left
  · -- what was left at half time is less than the softening of the first steps
    have stays : groupStep squares (n * (rate * zeta)) x ≤ x := groupStep_le second halfway
    have remains : 0 ≤ groupStep squares (n * (rate * zeta)) (max (x - m * (rate * mu)) 0) :=
      nonneg between
    linarith
  · have closer := groupStep_sub_le grows second left (sub_le_self x taken)
    rw [max_eq_left left]
    linarith

/-- Steps at once leave no more of a weight than the same steps one after the other. -/
theorem abs_decayedBeside_groupLasso_le (shrinks : 0 ≤ rate * mu) (groups : 0 ≤ rate * zeta)
    (m n : Nat) (w : ℝ) :
    |decayedBeside (.groupLasso mu zeta affinity) rate (some others) (m + n) w| ≤
      |decayedBeside (.groupLasso mu zeta affinity) rate (some others) n
        (decayedBeside (.groupLasso mu zeta affinity) rate (some others) m w)| := by
  have above : ∀ {w : ℝ}, 0 ≤ w →
      |decayedBeside (.groupLasso mu zeta affinity) rate (some others) (m + n) w| ≤
        |decayedBeside (.groupLasso mu zeta affinity) rate (some others) n
          (decayedBeside (.groupLasso mu zeta affinity) rate (some others) m w)| := by
    intro w positive
    rw [abs_of_nonneg (decayedBeside_groupLasso_nonneg positive _)]
    exact (decayedBeside_groupLasso_le shrinks groups positive).trans (le_abs_self _)
  rcases le_total 0 w with positive | negative
  · exact above positive
  · have mirrored := above (neg_nonneg.2 negative)
    simpa only [decayedBeside_groupLasso_neg shrinks, abs_neg] using mirrored

/-- Beside neighbours without weight a group step softens, and the steps add up. -/
theorem decayedBeside_groupLasso_add (shrinks : 0 ≤ rate * mu) (groups : 0 ≤ rate * zeta)
    (weightless : ∀ v ∈ others, v = 0) (m n : Nat) (w : ℝ) :
    decayedBeside (.groupLasso mu zeta affinity) rate (some others) n
        (decayedBeside (.groupLasso mu zeta affinity) rate (some others) m w) =
      decayedBeside (.groupLasso mu zeta affinity) rate (some others) (m + n) w := by
  have nothing : (others.map fun v => v * v).sum = 0 :=
    List.sum_eq_zero fun x listed => by
      obtain ⟨v, member, rfl⟩ := List.mem_map.1 listed
      rw [weightless v member, mul_zero]
  have once : ∀ (steps : Nat) (v : ℝ),
      decayedBeside (.groupLasso mu zeta affinity) rate (some others) steps v =
        soften (steps * (rate * zeta + rate * mu)) v := by
    intro steps v
    have zetas : 0 ≤ steps * (rate * zeta) := mul_nonneg steps.cast_nonneg groups
    have mus : 0 ≤ steps * (rate * mu) := mul_nonneg steps.cast_nonneg shrinks
    rw [decayedBeside_groupLasso_eq, nothing, groupStep_alone zetas, soften_soften (.inl ⟨zetas, mus⟩), mul_add]
  have amounts : 0 ≤ rate * zeta + rate * mu := add_nonneg groups shrinks
  rw [once, once, once, soften_soften
    (.inl ⟨mul_nonneg m.cast_nonneg amounts, mul_nonneg n.cast_nonneg amounts⟩)]
  push_cast
  rw [add_mul]

end

end Regularizer

end ProofWalk
