import Mathlib
import ProofWalk.Proofs.Exact
import ProofWalk.Learning.DualScores
import ProofWalk.Learning.Push
import ProofWalk.Learning.Rounds

/-!
# Scores whose slopes are derivatives

Scores are computed together with slopes by the weights of features. When one weight varies, scores
become functions of it, and the slopes are right if they are the derivatives of these functions. Moving
scores along an edge keeps slopes right by the product rule, whichever walk it is a part of.

## Main definitions

* `SparseRow.entry` — the number that a row holds for a feature
* `DualScores.slopeOf` — the slope of a node by a feature
* `DualScores.Tracks` — scores whose slopes are derivatives

## Main results

* `DualMass.sum_slopeOf_foldl_along` — slopes move on along edges and none is lost
* `DualScores.Tracks.along` — slopes stay right along an edge
* `DualScores.Tracks.foldl_along` — and along all edges of a node
-/

namespace ProofWalk

open Filter Topology

/-! ### Rows -/

namespace SparseRow

/-- What a row holds for a feature; numbers that it holds for the same feature count together. -/
noncomputable def entry (k : Nat) : SparseRow ℝ → ℝ
  | [] => 0
  | (j, d) :: rest => (if j = k then d else 0) + entry k rest

variable {j k : Nat}

@[simp] theorem entry_nil : entry k [] = 0 := rfl

@[simp] theorem entry_cons (slope : Nat × ℝ) (row : SparseRow ℝ) :
    entry k (slope :: row) = (if slope.1 = k then slope.2 else 0) + entry k row := rfl

theorem entry_add (x : ℝ) (row : SparseRow ℝ) :
    entry k (add j x row) = entry k row + if j = k then x else 0 := by
  induction row with
  | nil => simp [add]
  | cons slope rest ih =>
    rw [add]
    split
    · rename_i same
      subst same
      by_cases here : slope.1 = k <;> simp [here, add_right_comm]
    · rw [entry_cons, ih, entry_cons, add_assoc]

theorem map_fst_addPresent (x : ℝ) (row : SparseRow ℝ) :
    (addPresent j x row).map (·.1) = row.map (·.1) := by
  induction row with
  | nil => rfl
  | cons slope rest ih =>
    rw [addPresent]
    split
    · rfl
    · rw [List.map_cons, ih, List.map_cons]

theorem entry_addPresent {x : ℝ} {row : SparseRow ℝ} (present : j ∈ row.map (·.1)) :
    entry k (addPresent j x row) = entry k row + if j = k then x else 0 := by
  induction row with
  | nil => cases present
  | cons slope rest ih =>
    rw [addPresent]
    split
    · rename_i same
      subst same
      by_cases here : slope.1 = k <;> simp [here, add_right_comm]
    · rename_i other
      have further : j ∈ rest.map (·.1) := by
        rcases List.mem_cons.1 present with same | further
        · exact absurd same.symm other
        · exact further
      rw [entry_cons, ih further, entry_cons, add_assoc]

theorem mem_keys_add (x : ℝ) (row : SparseRow ℝ) (i : Nat) :
    i ∈ (add j x row).map (·.1) ↔ i = j ∨ i ∈ row.map (·.1) := by
  induction row with
  | nil => simp [add]
  | cons slope rest ih =>
    rw [add]
    split
    · rename_i same
      subst same
      simp
    · rw [List.map_cons, List.mem_cons, ih, List.map_cons, List.mem_cons]
      tauto

/-- Every number of a row multiplied. -/
theorem entry_map_mul (c : ℝ) (row : SparseRow ℝ) :
    entry k (row.map fun slope => (slope.1, c * slope.2)) = c * entry k row := by
  induction row with
  | nil => simp
  | cons slope rest ih =>
    rw [List.map_cons, entry_cons, ih, entry_cons, mul_add, mul_ite, mul_zero]

/-- Numbers that are zero do not matter. -/
theorem entry_filter_ne_zero (row : SparseRow ℝ) :
    entry k (row.filter fun slope => slope.2 != 0) = entry k row := by
  induction row with
  | nil => rfl
  | cons slope rest ih =>
    rw [List.filter_cons, entry_cons]
    split
    · rw [entry_cons, ih]
    · rename_i zero
      have isZero : slope.2 = 0 := by simpa using zero
      rw [ih, isZero, ite_self, zero_add]

end SparseRow

/-! ### Scores -/

namespace DualScores

/-- The slope of a node by a feature. -/
def slopeOf (s : DualScores ℝ) (u k : Nat) : ℝ := ((s.slopesAt u)[k]?).getD 0

/-- There is a score for every node, and a slope by every feature. -/
structure Fits (s : DualScores ℝ) (nodes features : Nat) : Prop where
  score : s.score.size = nodes + 1
  slope : s.slope.size = nodes + 1
  row : ∀ row ∈ s.slope, row.size = features

variable {s : DualScores ℝ} {nodes features u v k : Nat}

theorem Fits.slopesAt_size (fits : s.Fits nodes features) (inside : u ≤ nodes) :
    (s.slopesAt u).size = features := by
  have bound : u < s.slope.size := by
    rw [fits.slope]
    exact Nat.lt_succ_of_le inside
  rw [slopesAt, Array.getElem?_eq_getElem bound]
  exact fits.row _ (Array.getElem_mem bound)

/-- What changes rows of slopes without changing their number and size keeps scores fitting. -/
theorem Fits.of_modify (fits : s.Fits nodes features) {score : Array ℝ}
    (sameSize : score.size = s.score.size) {f : Array ℝ → Array ℝ} (rows : ∀ row, (f row).size = row.size) :
    (⟨score, s.slope.modify v f⟩ : DualScores ℝ).Fits nodes features := by
  refine ⟨sameSize.trans fits.score, (Array.size_modify ..).trans fits.slope, fun row member => ?_⟩
  obtain ⟨i, inside, rfl⟩ := Array.mem_iff_getElem.1 member
  rw [Array.size_modify] at inside
  rw [Array.getElem_modify]
  split
  · rw [rows]
    exact fits.row _ (Array.getElem_mem inside)
  · exact fits.row _ (Array.getElem_mem inside)

theorem Fits.addSlope (fits : s.Fits nodes features) (v k : Nat) (x : ℝ) :
    (s.addSlope v k x).Fits nodes features :=
  fits.of_modify rfl fun _ => Array.size_modify ..

theorem Fits.add (fits : s.Fits nodes features) (v : Nat) (scale score : ℝ) (slopes : Array ℝ) :
    (s.add v scale score slopes).Fits nodes features := by
  have sameSize : (s.addScore v (scale * score)).score.size = s.score.size := Array.size_modify ..
  exact fits.of_modify sameSize fun _ => Array.size_mapIdx ..

theorem Fits.put (fits : s.Fits nodes features) (v : Nat) (x : ℝ) (f : ℝ → ℝ) :
    (s.put v x f).Fits nodes features :=
  fits.of_modify (Array.size_setIfInBounds ..) fun _ => Array.size_map ..

theorem at_add (fits : s.Fits nodes features) (scale score : ℝ) (slopes : Array ℝ) :
    (s.add v scale score slopes).at_ u =
      s.at_ u + if v = u ∧ u ≤ nodes then scale * score else 0 := by
  change ((s.score.modify v _)[u]?).getD 0 = _
  rw [Array.getElem?_modify, at_]
  by_cases inside : u ≤ nodes
  · have bound : u < s.score.size := by
      rw [fits.score]
      exact Nat.lt_succ_of_le inside
    by_cases here : v = u <;> simp [here, inside, Array.getElem?_eq_getElem bound]
  · have outside : s.score.size ≤ u := by
      rw [fits.score]
      omega
    simp [inside, Array.getElem?_eq_none outside]

/-- What a change of one row does to slopes. -/
private theorem slopesAt_modify {score : Array ℝ} (fits : s.Fits nodes features) (f : Array ℝ → Array ℝ) :
    (⟨score, s.slope.modify v f⟩ : DualScores ℝ).slopesAt u =
      if v = u ∧ u ≤ nodes then f (s.slopesAt u) else s.slopesAt u := by
  change ((s.slope.modify v f)[u]?).getD #[] = _
  rw [Array.getElem?_modify, slopesAt]
  by_cases inside : u ≤ nodes
  · have bound : u < s.slope.size := by
      rw [fits.slope]
      exact Nat.lt_succ_of_le inside
    by_cases here : v = u <;> simp [here, inside, Array.getElem?_eq_getElem bound]
  · have outside : s.slope.size ≤ u := by
      rw [fits.slope]
      omega
    simp [inside, Array.getElem?_eq_none outside]

theorem slopeOf_add (fits : s.Fits nodes features) (feature : k < features) (scale score : ℝ)
    (slopes : Array ℝ) :
    (s.add v scale score slopes).slopeOf u k =
      s.slopeOf u k + if v = u ∧ u ≤ nodes then scale * (slopes[k]?).getD 0 else 0 := by
  rw [slopeOf, slopeOf, add, addSlopes, addScore, slopesAt_modify fits]
  split
  · rename_i here
    have bound : k < (s.slopesAt u).size := by rwa [fits.slopesAt_size here.2]
    rw [Array.getElem?_mapIdx, Array.getElem?_eq_getElem bound]
    rfl
  · rw [add_zero]

theorem slopeOf_addSlope (fits : s.Fits nodes features) (feature : k < features) (j : Nat) (x : ℝ) :
    (s.addSlope v j x).slopeOf u k =
      s.slopeOf u k + if v = u ∧ u ≤ nodes then if j = k then x else 0 else 0 := by
  rw [slopeOf, slopeOf, addSlope, slopesAt_modify fits]
  split
  · rename_i here
    have bound : k < (s.slopesAt u).size := by rwa [fits.slopesAt_size here.2]
    rw [Array.getElem?_modify, Array.getElem?_eq_getElem bound]
    split <;> simp
  · rw [add_zero]

theorem at_put (fits : s.Fits nodes features) (x : ℝ) (f : ℝ → ℝ) :
    (s.put v x f).at_ u = if v = u ∧ u ≤ nodes then x else s.at_ u := by
  change ((s.score.setIfInBounds v x)[u]?).getD 0 = _
  rw [Array.getElem?_setIfInBounds, at_]
  by_cases here : v = u
  · subst here
    have bound : v < s.score.size ↔ v ≤ nodes := by
      rw [fits.score]
      exact Nat.lt_succ_iff
    by_cases inside : v ≤ nodes
    · simp [inside, bound]
    · have outside : s.score.size ≤ v := Nat.le_of_not_lt (mt bound.1 inside)
      simp [inside, bound]
  · simp [here]

theorem slopeOf_put (fits : s.Fits nodes features) (feature : k < features) (x : ℝ) (f : ℝ → ℝ) :
    (s.put v x f).slopeOf u k = if v = u ∧ u ≤ nodes then f (s.slopeOf u k) else s.slopeOf u k := by
  rw [slopeOf, slopeOf, put, slopesAt_modify fits]
  split
  · rename_i here
    have bound : k < (s.slopesAt u).size := by rwa [fits.slopesAt_size here.2]
    rw [Array.getElem?_map, Array.getElem?_eq_getElem bound]
    rfl
  · rfl

end DualScores

/-! ### Along an edge -/

namespace DualMass

open DualScores

variable {g : LearningGraph} {t : Transitions ℝ} {s : DualScores ℝ} {nodes features u v e k : Nat}

private theorem foldl_addSlope (fits : s.Fits nodes features) (v : Nat) (c : ℝ) (row : SparseRow ℝ) :
    let s' := row.foldl (fun s (j, d) => s.addSlope v j (c * d)) s
    s'.Fits nodes features ∧ (∀ u, s'.at_ u = s.at_ u) ∧ ∀ k < features, ∀ u,
      s'.slopeOf u k = s.slopeOf u k + if v = u ∧ u ≤ nodes then c * row.entry k else 0 := by
  induction row generalizing s with
  | nil => exact ⟨fits, fun _ => rfl, fun k _ u => by simp⟩
  | cons slope rest ih =>
    obtain ⟨fits', scores, slopes⟩ := ih (fits.addSlope v slope.1 (c * slope.2))
    refine ⟨fits', scores, fun k feature u => ?_⟩
    rw [List.foldl_cons, slopes k feature, slopeOf_addSlope fits feature, SparseRow.entry_cons]
    split
    · rw [mul_add, mul_ite, mul_zero, add_assoc]
    · rw [add_zero]

/-- Scores go on to fit when something moves along an edge. -/
theorem fits_along (fits : s.Fits nodes features) (scale score : ℝ) (slopes : Array ℝ) :
    (along g t scale score slopes s e).Fits nodes features :=
  (foldl_addSlope (fits.add (g.target e) (scale * t.at_ e) score slopes) (g.target e) (scale * score)
    (t.slopeAt e)).1

/-- What moves along an edge: the score and its slopes by the product rule. -/
theorem along_spec (fits : s.Fits nodes features) (feature : k < features) (scale score : ℝ)
    (slopes : Array ℝ) :
    let s' := along g t scale score slopes s e
    s'.Fits nodes features ∧
      (∀ u, s'.at_ u =
        s.at_ u + if g.target e = u ∧ u ≤ nodes then scale * t.at_ e * score else 0) ∧
      ∀ u, s'.slopeOf u k = s.slopeOf u k + if g.target e = u ∧ u ≤ nodes then
        scale * t.at_ e * (slopes[k]?).getD 0 + scale * score * (t.slopeAt e).entry k else 0 := by
  obtain ⟨fits', scores, moved⟩ :=
    foldl_addSlope (fits.add (g.target e) (scale * t.at_ e) score slopes) (g.target e) (scale * score)
      (t.slopeAt e)
  refine ⟨fits', fun u => (scores u).trans (at_add fits ..), fun u => (moved k feature u).trans ?_⟩
  rw [slopeOf_add fits feature]
  split
  · rw [add_assoc]
  · rw [add_zero]

/-- What moves along several edges. -/
theorem foldl_along_spec (fits : s.Fits nodes features) (feature : k < features) (scale score : ℝ)
    (slopes : Array ℝ) (edges : List Nat) :
    let s' := edges.foldl (along g t scale score slopes) s
    s'.Fits nodes features ∧
      (∀ u, s'.at_ u = s.at_ u +
        (edges.map fun e => if g.target e = u ∧ u ≤ nodes then scale * t.at_ e * score else 0).sum) ∧
      ∀ u, s'.slopeOf u k = s.slopeOf u k +
        (edges.map fun e => if g.target e = u ∧ u ≤ nodes then
          scale * t.at_ e * (slopes[k]?).getD 0 + scale * score * (t.slopeAt e).entry k else 0).sum := by
  induction edges generalizing s with
  | nil => exact ⟨fits, fun u => (add_zero _).symm, fun u => (add_zero _).symm⟩
  | cons e rest ih =>
    obtain ⟨fits₁, scores₁, slopes₁⟩ :=
      along_spec (g := g) (t := t) (e := e) fits feature scale score slopes
    obtain ⟨fits', scores', slopes'⟩ := ih fits₁
    refine ⟨fits', fun u => (scores' u).trans ?_, fun u => (slopes' u).trans ?_⟩
    · rw [scores₁, List.map_cons, List.sum_cons, add_assoc]
    · rw [slopes₁, List.map_cons, List.sum_cons, add_assoc]

end DualMass

/-! ### Slopes over all nodes -/

section

variable {nodes u : Nat}

/-- What one node gains is gained over all nodes. -/
theorem sum_gain (node : u ∈ Finset.Icc 1 nodes) (f : Nat → ℝ) (x : ℝ) :
    ∑ v ∈ Finset.Icc 1 nodes, (f v + if u = v ∧ v ≤ nodes then x else 0) =
      (∑ v ∈ Finset.Icc 1 nodes, f v) + x := by
  have gains : ∀ v ∈ Finset.Icc 1 nodes,
      (if u = v ∧ v ≤ nodes then x else 0) = if u = v then x else 0 := by
    intro v member
    simp [(Finset.mem_Icc.1 member).2]
  rw [Finset.sum_add_distrib, Finset.sum_congr rfl gains, Finset.sum_ite_eq, if_pos node]

private theorem sum_gains {target : Nat → Nat} {edges : List Nat}
    (targets : ∀ e ∈ edges, target e ∈ Finset.Icc 1 nodes) (f x : Nat → ℝ) :
    ∑ v ∈ Finset.Icc 1 nodes,
        (f v + (edges.map fun e => if target e = v ∧ v ≤ nodes then x e else 0).sum) =
      (∑ v ∈ Finset.Icc 1 nodes, f v) + (edges.map x).sum := by
  induction edges generalizing f with
  | nil => simp
  | cons e rest ih =>
    have regroup : ∀ v ∈ Finset.Icc 1 nodes,
        f v + ((e :: rest).map fun e => if target e = v ∧ v ≤ nodes then x e else 0).sum =
          (f v + if target e = v ∧ v ≤ nodes then x e else 0) +
            (rest.map fun e => if target e = v ∧ v ≤ nodes then x e else 0).sum := by
      intro v _
      rw [List.map_cons, List.sum_cons, add_assoc]
    rw [Finset.sum_congr rfl regroup, ih fun e' member => targets e' (List.mem_cons_of_mem _ member),
      sum_gain (targets e (by simp)), List.map_cons, List.sum_cons, add_assoc]

variable {g : LearningGraph} {t : Transitions ℝ} {s : DualScores ℝ} {features k : Nat}

/-- What a node gains by a multiple of slopes. -/
theorem DualScores.sum_slopeOf_add (fits : s.Fits nodes features) (feature : k < features)
    (node : u ∈ Finset.Icc 1 nodes) (scale score : ℝ) (slopes : Array ℝ) :
    ∑ v ∈ Finset.Icc 1 nodes, (s.add u scale score slopes).slopeOf v k =
      (∑ v ∈ Finset.Icc 1 nodes, s.slopeOf v k) + scale * (slopes[k]?).getD 0 := by
  rw [Finset.sum_congr rfl fun v _ => slopeOf_add fits feature scale score slopes]
  exact sum_gain node _ _

/-- Along edges whose probabilities make one and whose slopes cancel, all slopes of a node move on and none
is lost. -/
theorem DualMass.sum_slopeOf_foldl_along (fits : s.Fits nodes features) (feature : k < features)
    {edges : List Nat} (targets : ∀ e ∈ edges, g.target e ∈ Finset.Icc 1 nodes)
    (ones : (edges.map t.at_).sum = 1)
    (cancel : (edges.map fun e => (t.slopeAt e).entry k).sum = 0) (scale score : ℝ) (slopes : Array ℝ) :
    ∑ v ∈ Finset.Icc 1 nodes, (edges.foldl (along g t scale score slopes) s).slopeOf v k =
      (∑ v ∈ Finset.Icc 1 nodes, s.slopeOf v k) + scale * (slopes[k]?).getD 0 := by
  have moved := (foldl_along_spec (g := g) (t := t) fits feature scale score slopes edges).2.2
  rw [Finset.sum_congr rfl fun v _ => moved v, sum_gains targets]
  congr 1
  have factored (e : Nat) : scale * t.at_ e * (slopes[k]?).getD 0 + scale * score * (t.slopeAt e).entry k =
      t.at_ e * (scale * (slopes[k]?).getD 0) + (t.slopeAt e).entry k * (scale * score) := by
    ring
  rw [List.map_congr_left fun e _ => factored e, List.sum_map_add, List.sum_map_mul_right,
    List.sum_map_mul_right, cancel, ones]
  ring

end

/-! ### Derivatives -/

namespace DualScores

/-- Scores that vary with the weight of a feature, and their slopes by it are derivatives. -/
structure Tracks (S : ℝ → DualScores ℝ) (θ₀ : ℝ) (nodes features k : Nat) : Prop where
  fits : ∀ᶠ θ in 𝓝 θ₀, (S θ).Fits nodes features
  derivative : ∀ u, HasDerivAt (fun θ => (S θ).at_ u) ((S θ₀).slopeOf u k) θ₀

namespace Tracks

variable {S S' R : ℝ → DualScores ℝ} {T : ℝ → Transitions ℝ} {θ₀ : ℝ} {nodes features k : Nat}

/-- Scores that do not vary have no slope. -/
theorem const {s : DualScores ℝ} (fits : s.Fits nodes features) (flat : ∀ u, s.slopeOf u k = 0) :
    Tracks (fun _ => s) θ₀ nodes features k := by
  refine ⟨.of_forall fun _ => fits, fun u => ?_⟩
  rw [flat]
  exact hasDerivAt_const ..

/-- A node has a slope by a feature, and it is a derivative. -/
theorem exists_slope (tracks : Tracks S θ₀ nodes features k) (feature : k < features) {u : Nat}
    (inside : u ≤ nodes) :
    ∃ d, ((S θ₀).slopesAt u)[k]? = some d ∧ HasDerivAt (fun θ => (S θ).at_ u) d θ₀ := by
  have column : k < ((S θ₀).slopesAt u).size := by
    rwa [tracks.fits.self_of_nhds.slopesAt_size inside]
  have here := Array.getElem?_eq_getElem column
  have derivative := tracks.derivative u
  rw [slopeOf, here] at derivative
  exact ⟨_, here, derivative⟩

/-- Only scores near the point matter. -/
theorem congr (tracks : Tracks S θ₀ nodes features k) (same : ∀ᶠ θ in 𝓝 θ₀, S' θ = S θ) :
    Tracks S' θ₀ nodes features k := by
  refine ⟨?_, fun u => ?_⟩
  · filter_upwards [tracks.fits, same] with θ fits equal
    rwa [equal]
  · rw [same.self_of_nhds]
    exact (tracks.derivative u).congr_of_eventuallyEq (same.mono fun θ equal => congrArg (at_ · u) equal)

/-- What a node gains has what its slope gains as its derivative. -/
private theorem of_gain (tracks : Tracks S θ₀ nodes features k)
    (fits : ∀ᶠ θ in 𝓝 θ₀, (S' θ).Fits nodes features) {v : Nat} {gain : ℝ → ℝ} {slope : ℝ}
    (derivative : HasDerivAt gain slope θ₀)
    (scores : ∀ᶠ θ in 𝓝 θ₀, ∀ u, (S' θ).at_ u =
      (S θ).at_ u + if v = u ∧ u ≤ nodes then gain θ else 0)
    (slopes : ∀ u, (S' θ₀).slopeOf u k =
      (S θ₀).slopeOf u k + if v = u ∧ u ≤ nodes then slope else 0) :
    Tracks S' θ₀ nodes features k := by
  refine ⟨fits, fun u => ?_⟩
  rw [slopes]
  refine HasDerivAt.congr_of_eventuallyEq ?_ (scores.mono fun θ equal => equal u)
  split
  · exact (tracks.derivative u).fun_add derivative
  · exact (tracks.derivative u).fun_add (hasDerivAt_const ..)

/-- Slopes stay right when a node gains a multiple of what another has. -/
theorem add (tracks : Tracks S θ₀ nodes features k) (feature : k < features) (v : Nat) (scale : ℝ)
    (source : Tracks R θ₀ nodes features k) (u : Nat) :
    Tracks (fun θ => (S θ).add v scale ((R θ).at_ u) ((R θ).slopesAt u)) θ₀ nodes features k :=
  of_gain tracks (tracks.fits.mono fun _ fits => fits.add ..) ((source.derivative u).const_mul scale)
    (tracks.fits.mono fun _ fits _ => at_add fits ..)
    fun _ => slopeOf_add tracks.fits.self_of_nhds feature ..

theorem put (tracks : Tracks S θ₀ nodes features k) (feature : k < features) (v : Nat)
    {score f : ℝ → ℝ} (given : HasDerivAt score (f ((S θ₀).slopeOf v k)) θ₀) :
    Tracks (fun θ => (S θ).put v (score θ) f) θ₀ nodes features k := by
  refine ⟨tracks.fits.mono fun _ fits => fits.put .., fun u => ?_⟩
  rw [slopeOf_put tracks.fits.self_of_nhds feature]
  refine HasDerivAt.congr_of_eventuallyEq ?_ (tracks.fits.mono fun _ fits => at_put fits ..)
  split
  · rename_i here
    rw [← here.1]
    exact given
  · exact tracks.derivative u

section

variable (tracks : Tracks S θ₀ nodes features k) (feature : k < features) (scale : ℝ)
  (source : Tracks R θ₀ nodes features k) (g : LearningGraph) (u : Nat)

include tracks feature source

/-- Slopes stay right when the score of a node moves along an edge whose own slope is right. -/
theorem along {e : Nat}
    (edge : HasDerivAt (fun θ => (T θ).at_ e) (((T θ₀).slopeAt e).entry k) θ₀) :
    Tracks (fun θ => DualMass.along g (T θ) scale ((R θ).at_ u) ((R θ).slopesAt u) (S θ) e) θ₀ nodes
      features k := by
  obtain ⟨-, -, moved⟩ := DualMass.along_spec (g := g) (t := T θ₀) (e := e) tracks.fits.self_of_nhds
    feature scale ((R θ₀).at_ u) ((R θ₀).slopesAt u)
  have derivative : HasDerivAt (fun θ => scale * (T θ).at_ e * (R θ).at_ u)
      (scale * (T θ₀).at_ e * (R θ₀).slopeOf u k +
        scale * (R θ₀).at_ u * ((T θ₀).slopeAt e).entry k) θ₀ := by
    refine ((edge.const_mul scale).fun_mul (source.derivative u)).congr_deriv ?_
    ring
  exact of_gain tracks (tracks.fits.mono fun θ fits => (DualMass.along_spec fits feature ..).1) derivative
    (tracks.fits.mono fun θ fits => (DualMass.along_spec fits feature ..).2.1) moved

/-- Slopes stay right when the score of a node moves along several edges. -/
theorem foldl_along {edges : List Nat}
    (slopesRight : ∀ e ∈ edges, HasDerivAt (fun θ => (T θ).at_ e) (((T θ₀).slopeAt e).entry k) θ₀) :
    Tracks (fun θ => edges.foldl (DualMass.along g (T θ) scale ((R θ).at_ u) ((R θ).slopesAt u)) (S θ)) θ₀
      nodes features k := by
  induction edges generalizing S with
  | nil => exact tracks
  | cons e rest ih =>
    exact ih (along tracks feature scale source g u (slopesRight e (by simp)))
      fun e' member => slopesRight e' (List.mem_cons_of_mem _ member)

end

end Tracks

end DualScores

end ProofWalk
