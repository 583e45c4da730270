import ProofWalk.Proofs.Exact
import Mathlib.Algebra.Order.Floor.Semiring
import Mathlib.Algebra.Order.Archimedean.Basic
import ProofWalk.Config.Basic
import ProofWalk.Proofs.Prover.Balance

/-!
# The work of a walk

Every push settles at least `alpha` times `epsilon`, and no more than all mass can settle. So a walk
pushes only a bounded number of times, however its graph goes on, and for a positive `alpha` it ends: a
node is drained, a pass gets to the bottom, and the thresholds come down to `epsilon`, all within what is
left to settle.

## Main definitions

* `Ledger.Sound` — no amount is negative, and all mass together is one
* `Ledger.PaysFor`, `Recording.Bounded` — settled mass pays for so many pushes, and for all on a record
* `Ledger.left` — how many pushes a ledger can still take
* `World.Spends` — every step leaves fewer steps to take

## Main results

* `Ledger.PushesTo.sound` — what a push settles
* `Recording.bounded_of_isRecord` — settled mass pays for all pushes
* `Recording.pass_finishes`, `Recording.tighten_finishes` — enough fuel is found
* `Walk.serve_finishes` — also for a queue
-/

namespace ProofWalk

open Finsupp (single single_eq_same single_eq_of_ne erase_same erase_ne)

/-! ### Options -/

/-- Options within bounds, in numbers. -/
theorem WalkOptions.bounds_of_check {o : WalkOptions ℝ} (checked : o.check = .ok ()) :
    (0 ≤ o.alpha ∧ o.alpha ≤ 1) ∧ (0 ≤ o.stay ∧ o.stay < 1) ∧ 0 < o.epsilon := by
  unfold WalkOptions.check at checked
  split at checked
  · cases checked
  rename_i alpha
  split at checked
  · cases checked
  rename_i stay
  split at checked
  · cases checked
  rename_i epsilon
  refine ⟨?_, ?_, not_le.1 epsilon⟩
  · simpa using alpha
  · simpa using stay

/-! ### What a push settles -/

theorem dot_one_nonneg {p : ℕ →₀ ℝ} (nonneg : ∀ u, 0 ≤ p u) : 0 ≤ dot p fun _ => 1 :=
  Finsupp.sum_nonneg fun u _ => mul_nonneg (nonneg u) zero_le_one

namespace Ledger

/-- All settled mass. -/
noncomputable def spent (l : Ledger) : ℝ := dot l.settled fun _ => 1

/-- No amount is negative, and all mass together is one. -/
structure Sound (l : Ledger) : Prop where
  settled : ∀ u, 0 ≤ l.settled u
  residual : ∀ u, 0 ≤ l.residual u
  mass : l.spent + dot l.residual (fun _ => 1) = 1

variable {o : WalkOptions ℝ} {out : Nat → Option (List (Nat × ℝ))} {l l' : Ledger}

theorem Sound.spent_nonneg (sound : l.Sound) : 0 ≤ l.spent := dot_one_nonneg sound.settled

theorem Sound.spent_le_one (sound : l.Sound) : l.spent ≤ 1 := by
  have rest := dot_one_nonneg sound.residual
  linarith [sound.mass]

theorem sound_single (root : Nat) : ({ settled := 0, residual := single root 1 } : Ledger).Sound := by
  refine ⟨fun u => le_rfl, fun u => ?_, ?_⟩
  · by_cases same : u = root
    · rw [same, single_eq_same]
      exact zero_le_one
    · rw [single_eq_of_ne same]
  · rw [spent, dot_zero, dot_single, zero_add, one_mul]

theorem passed_nonneg {links : List (Nat × ℝ)} {total r : ℝ} (alpha : o.alpha ≤ 1)
    (stay : o.stay ≤ 1) (weights : ∀ l ∈ links, 0 ≤ l.2) (positive : 0 ≤ total) (residual : 0 ≤ r)
    (v : Nat) : 0 ≤ passed o links total r v := by
  induction links with
  | nil => exact le_rfl
  | cons l rest ih =>
    rw [passed_cons, Finsupp.add_apply]
    refine add_nonneg ?_ (ih fun other member => weights other (by simp [member]))
    have share : 0 ≤ (1 - o.alpha) * (1 - o.stay) * (l.2 / total) * r := by
      have weight := weights l (by simp)
      have kept := sub_nonneg.2 alpha
      have moved := sub_nonneg.2 stay
      positivity
    by_cases same : v = l.1
    · rwa [same, single_eq_same]
    · rw [single_eq_of_ne same]

/-- A residual that exceeds `epsilon` per link exceeds it. -/
theorem lt_of_lt_div {x r : ℝ} {degree : ℕ} (positive : 0 < x) (residual : 0 ≤ r)
    (above : x < r / degree) : x < r := by
  have some : 1 ≤ degree := by
    by_contra none
    obtain rfl : degree = 0 := by omega
    rw [Nat.cast_zero, div_zero] at above
    linarith
  exact above.trans_le (div_le_self residual (by exact_mod_cast some))

/-- A push leaves no amount negative and no mass out, and it settles at least `alpha` times
`epsilon`. -/
theorem PushesTo.sound (checked : o.check = .ok ())
    (weights : ∀ u links, out u = some links → ∀ l ∈ links, 0 ≤ l.2)
    (pushes : l.PushesTo o out l') (sound : l.Sound) :
    l'.Sound ∧ l.spent + o.alpha * o.epsilon ≤ l'.spent := by
  obtain ⟨⟨alphaPos, alphaLe⟩, ⟨stayPos, stayLt⟩, epsilon⟩ := WalkOptions.bounds_of_check checked
  have mass := (pushes.worth (promises_one o out)).trans sound.mass
  obtain ⟨u, links, degree, known, above, becomes⟩ := pushes
  -- only a node that holds more than `epsilon` is pushed
  have exceeds : o.epsilon < l.residual u := lt_of_lt_div epsilon (sound.residual u) above
  have single_nonneg : ∀ {x : ℝ}, 0 ≤ x → ∀ v, 0 ≤ single u x v := by
    intro x nonneg v
    by_cases same : v = u
    · rwa [same, single_eq_same]
    · rw [single_eq_of_ne same]
  have erase_nonneg : ∀ v, 0 ≤ l.residual.erase u v := by
    intro v
    by_cases same : v = u
    · rw [same, erase_same]
    · rw [erase_ne same]
      exact sound.residual v
  split at becomes
  · subst becomes
    refine ⟨⟨fun v => ?_, erase_nonneg, mass⟩, ?_⟩
    · exact add_nonneg (sound.settled v) (single_nonneg (sound.residual u) v)
    · rw [spent, spent, absorb, dot_add, dot_single, mul_one]
      have share : o.alpha * o.epsilon ≤ 1 * l.residual u := by gcongr
      linarith
  · subst becomes
    refine ⟨⟨fun v => ?_, fun v => ?_, mass⟩, ?_⟩
    · exact add_nonneg (sound.settled v)
        (single_nonneg (mul_nonneg alphaPos (sound.residual u)) v)
    · have kept : 0 ≤ (1 - o.alpha) * o.stay * l.residual u :=
        mul_nonneg (mul_nonneg (sub_nonneg.2 alphaLe) stayPos) (sound.residual u)
      have total : 0 ≤ (links.map (·.2)).sum := List.sum_nonneg fun x member => by
        obtain ⟨link, isLink, rfl⟩ := List.mem_map.1 member
        exact weights u links known link isLink
      exact add_nonneg (add_nonneg (erase_nonneg v) (single_nonneg kept v))
        (passed_nonneg alphaLe stayLt.le (weights u links known) total (sound.residual u) v)
    · rw [spent, spent, push, dot_add, dot_single, mul_one]
      have share : o.alpha * o.epsilon ≤ o.alpha * l.residual u := by gcongr
      linarith

/-- How many pushes a ledger can still take. -/
noncomputable def left (o : WalkOptions ℝ) (l : Ledger) : ℕ :=
  ⌊(1 - l.spent) / (o.alpha * o.epsilon)⌋₊

/-- A push leaves fewer pushes to take. -/
theorem PushesTo.left_lt (checked : o.check = .ok ()) (alpha : 0 < o.alpha)
    (weights : ∀ u links, out u = some links → ∀ l ∈ links, 0 ≤ l.2)
    (pushes : l.PushesTo o out l') (sound : l.Sound) : l'.left o < l.left o := by
  obtain ⟨sound', settles⟩ := pushes.sound checked weights sound
  have epsilon := (WalkOptions.bounds_of_check checked).2.2
  have step : 0 < o.alpha * o.epsilon := mul_pos alpha epsilon
  have fewer : (1 - l'.spent) / (o.alpha * o.epsilon) + 1 ≤
      (1 - l.spent) / (o.alpha * o.epsilon) := by
    rw [div_add_one step.ne', div_le_div_iff_of_pos_right step]
    linarith
  have remains : 0 ≤ (1 - l'.spent) / (o.alpha * o.epsilon) :=
    div_nonneg (sub_nonneg.2 sound'.spent_le_one) step.le
  have floors := Nat.floor_le_floor fewer
  rw [Nat.floor_add_one remains] at floors
  exact floors

end Ledger

namespace Ledger

/-- After so many pushes: no amount is negative, and what has settled pays for the pushes and is at most
one. -/
structure PaysFor (o : WalkOptions ℝ) (pushes : ℕ) (l : Ledger) : Prop where
  settled : ∀ u, 0 ≤ l.settled u
  residual : ∀ u, 0 ≤ l.residual u
  work : o.alpha * o.epsilon * pushes ≤ l.spent
  spent : l.spent ≤ 1

variable {o : WalkOptions ℝ} {pushes : ℕ} {l : Ledger}

theorem Sound.paysFor (sound : l.Sound) (work : o.alpha * o.epsilon * pushes ≤ l.spent) :
    l.PaysFor o pushes :=
  ⟨sound.settled, sound.residual, work, sound.spent_le_one⟩

/-- If `alpha` is positive there are at most as many pushes as settled mass can pay for. -/
theorem PaysFor.pushes_le (checked : o.check = .ok ()) (alpha : 0 < o.alpha)
    (paysFor : l.PaysFor o pushes) : (pushes : ℝ) ≤ 1 / (o.alpha * o.epsilon) := by
  have step : 0 < o.alpha * o.epsilon :=
    mul_pos alpha (WalkOptions.bounds_of_check checked).2.2
  rw [le_div_iff₀ step, mul_comm]
  exact paysFor.work.trans paysFor.spent

end Ledger

/-- At every moment on a record settled mass has paid for all pushes so far, so that a positive `alpha`
bounds their number. -/
structure Recording.Bounded {σ M : Type} (ledger : M → Ledger) (o : WalkOptions ℝ)
    (recorded : Recording σ M M) (s : σ) : Prop where
  paysFor : ∀ m earlier, m :: earlier <:+ recorded.record s → (ledger m).PaysFor o earlier.length
  pushes_le : 0 < o.alpha → ∀ m earlier, m :: earlier <:+ recorded.record s →
    (earlier.length : ℝ) ≤ 1 / (o.alpha * o.epsilon)

/-- The pushes on a record that starts with all mass at one node are paid for if every step pays for
itself. -/
theorem Recording.bounded_of_isRecord {σ M : Type} {W : World σ M} (good : M → Prop)
    {ledger : M → Ledger} {o : WalkOptions ℝ} {seed : M} {recorded : Recording σ M M}
    {walk : ExceptT Error (StateM σ) M} {s : σ} (checked : o.check = .ok ())
    (isRecord : Recording.IsRecord W seed recorded walk s) (start : good seed)
    (sound : ∀ {m}, good m → (ledger m).Sound)
    (step : ∀ {m m'}, W.step (walk s).2 m m' → good m →
      good m' ∧ (ledger m).spent + o.alpha * o.epsilon ≤ (ledger m').spent) :
    recorded.Bounded ledger o s := by
  have kept := isRecord.throughout
    (P := fun m earlier => good m ∧ o.alpha * o.epsilon * earlier.length ≤ (ledger m).spent)
    ⟨start, by simpa using (sound start).spent_nonneg⟩ fun pushes ⟨isGood, work⟩ => by
      obtain ⟨good', settles⟩ := step pushes isGood
      refine ⟨good', ?_⟩
      rw [List.length_cons, Nat.cast_add_one, mul_add_one]
      exact (add_le_add_left work _).trans settles
  have paysFor : ∀ m earlier, m :: earlier <:+ recorded.record s →
      (ledger m).PaysFor o earlier.length := fun m earlier suffix =>
    (sound (kept m earlier suffix).1).paysFor (kept m earlier suffix).2
  exact ⟨paysFor, fun alpha m earlier suffix => (paysFor m earlier suffix).pushes_le checked alpha⟩

/-! ### Enough fuel -/

/-- Every step from a good mass leads to a good one and leaves fewer steps to take. -/
def World.Spends {σ M : Type} (W : World σ M) (good : M → Prop) (left : M → ℕ) : Prop :=
  ∀ {s m m'}, W.step s m m' → good m → good m' ∧ left m' < left m

/-- A judge answers about every node that has been shown, in all that the graph may come to be. -/
def Judge.Answers {σ M : Type} (judge : Judge σ M) (W : World σ M) (s : σ) : Prop :=
  ∀ s', W.grows s s' → ∀ u, W.met s' u → ∀ m, ∃ v, (judge u m s').1 = .ok v

namespace Recording

variable {σ M : Type} {W : World σ M} {judge : Judge σ M} {isTooDeep : Nat → Bool} {s s' : σ}
  {earlier record : List M} {good : M → Prop} {left : M → ℕ} {m : M}

theorem drain_finishes (spends : W.Spends good left) {exceeds : M → Bool} {push : M → M}
    (steps : ∀ m, exceeds m → W.step s m (push m)) {bound : Nat} (isGood : good m)
    (enough : left m < bound) :
    Ends (drain exceeds push bound m) s record fun r s' _ =>
      s' = s ∧ ∃ m', r = .ok m' ∧ good m' ∧ left m' ≤ left m ∧ (exceeds m → left m' < left m) := by
  induction bound generalizing m record with
  | zero => exact absurd enough (Nat.not_lt_zero _)
  | succ bound ih =>
    rw [drain]
    split
    · rename_i above
      obtain ⟨isGood', fewer⟩ := spends (steps m above) isGood
      have rest : Ends (drain exceeds push bound (push m)) s (push m :: record) _ :=
        ih isGood' (by omega)
      obtain ⟨same, m', equal, good', less, -⟩ := rest
      exact ⟨same, m', equal, good', by omega, fun _ => by omega⟩
    · rename_i below
      exact ⟨rfl, m, rfl, isGood, le_rfl, fun above => absurd above below⟩

/-- What a visit of a node that ends comes to: the graph has grown, and if anything has been pushed
there is less left to push. -/
def Finishes (W : World σ M) (good : M → Prop) (left : M → ℕ) (s : σ) (before : Nat × M)
    (r : Except Error (Nat × M)) (s' : σ) (_ : List M) : Prop :=
  W.grows s s' ∧ ∃ after : Nat × M, r = .ok after ∧ good after.2 ∧ left after.2 ≤ left before.2 ∧
    (after.1 ≠ before.1 → left after.2 < left before.2)

theorem visitAll_finishes (left : M → ℕ) {visit : Nat → M → Recording σ M (Nat × M)} {nodes : List Nat}
    (before : Nat × M) (met : ∀ v ∈ nodes, W.met s v)
    (each : ∀ v ∈ nodes, ∀ s' record m, W.grows s s' → W.met s' v → good m → left m ≤ left before.2 →
      Ends (visit v m) s' record (Finishes W good left s' (0, m))) (isGood : good before.2) :
    Ends (visitAll visit nodes before) s record (Finishes W good left s before) := by
  unfold visitAll
  induction nodes generalizing s before record with
  | nil => exact ⟨W.grows_refl s, before, rfl, isGood, le_rfl, fun differs => absurd rfl differs⟩
  | cons v rest ih =>
    rw [List.foldlM_cons, bind_assoc]
    refine (each v (by simp) s record before.2 (W.grows_refl s) (met v (by simp)) isGood le_rfl).bind
      (fun e s' record' finishes => ?_) ?_
    · obtain ⟨-, after, equal, -⟩ := finishes
      cases equal
    rintro ⟨more, m₁⟩ s₁ record₁ ⟨grows, _, equal, good₁, less, fewer⟩
    cases equal
    rw [pure_bind]
    refine Ends.mono (ih (before.1 + more, m₁) (fun v member => ?_)
      (fun v member s' record m grows' met' isGood' less' => ?_) good₁) ?_
    · exact W.met_mono grows (met v (by simp [member]))
    · exact each v (by simp [member]) s' record m (W.grows_trans grows grows') met' isGood'
        (less'.trans less)
    · rintro r s₂ record₂ ⟨grows', after, rfl, good₂, less₂, fewer₂⟩
      simp only at less fewer less₂ fewer₂
      refine ⟨W.grows_trans grows grows', after, rfl, good₂, less₂.trans less, fun differs => ?_⟩
      by_cases none : more = 0
      · subst none
        exact (fewer₂ (by simpa using differs)).trans_le less
      · exact less₂.trans_lt (fewer none)

/-- A pass ends if its fuel exceeds what is left to push. -/
theorem pass_finishes (lawful : judge.Lawful W) (answers : judge.Answers W s)
    (spends : W.Spends good left) {bound limit : Nat} (depth : Nat) {u : Nat} (met : W.met s u)
    (isGood : good m) (enough : left m < limit) (enough' : left m < bound) :
    Ends (pass judge isTooDeep bound limit depth u m) s record (Finishes W good left s (0, m)) := by
  induction limit generalizing s depth u m record with
  | zero => exact absurd enough (Nat.not_lt_zero _)
  | succ limit ih =>
    have nothing : ∀ {s' record}, W.grows s s' →
        Finishes W good left s (0, m) (.ok (0, m)) s' record := fun grows =>
      ⟨grows, (0, m), rfl, isGood, le_rfl, fun differs => absurd rfl differs⟩
    unfold pass
    split
    · exact nothing (W.grows_refl s)
    have grows := lawful.grows m met
    obtain ⟨v, given⟩ := answers s (W.grows_refl s) u met m
    refine Ends.bind (P := fun r s' _ => r = .ok v ∧ s' = (judge u m s).2)
      ⟨given, rfl⟩ (fun e s' record' impossible => by cases impossible.1) ?_
    rintro _ s' record' ⟨equal, rfl⟩
    cases equal
    have sound := lawful.sound met given
    cases v with
    | leave => exact nothing grows
    | settle m' =>
      obtain ⟨good', fewer⟩ := spends sound isGood
      exact ⟨grows, (1, m'), rfl, good', fewer.le, fun _ => fewer⟩
    | spread exceeds push onward =>
      obtain ⟨above, steps, shown⟩ := sound
      refine (drain_finishes spends steps isGood enough').bind
        (fun e s' record' impossible => ?_) ?_
      · obtain ⟨-, m', equal, -⟩ := impossible
        cases equal
      rintro m₁ s₁ record₁ ⟨rfl, _, equal, good₁, -, fewer⟩
      cases equal
      -- something has been pushed, so less fuel is needed further down
      have less := fewer above
      refine Ends.mono (visitAll_finishes left (1, m₁) shown
        (fun v member s' record m' grows' met' good' less' => ?_) good₁) ?_
      · refine ih (fun s'' grows'' => answers s'' ?_) (depth + 1) met' good' ?_ ?_
        · exact W.grows_trans (W.grows_trans grows grows') grows''
        · exact (less'.trans_lt less).trans_le (Nat.le_of_lt_succ enough)
        · exact (less'.trans_lt less).trans enough'
      · rintro r s'' record'' ⟨grows', after, rfl, good', less', -⟩
        exact ⟨W.grows_trans grows grows', after, rfl, good', less'.trans less.le,
          fun _ => less'.trans_lt less⟩

/-! ### Thresholds -/

/-- The threshold is down to `epsilon` after so many more passes. -/
def Reaches (o : WalkOptions ℝ) : ℕ → ℝ → Prop
  | 0, threshold => tightened o threshold = o.epsilon
  | n + 1, threshold => Reaches o n (tightened o threshold)

/-- Thresholds come down to `epsilon`. -/
theorem exists_reaches {o : WalkOptions ℝ} (positive : 0 < o.epsilon) (threshold : ℝ) :
    ∃ n, Reaches o n threshold := by
  have reaches : ∀ n threshold, threshold / 10 ^ (n + 1) ≤ o.epsilon → Reaches o n threshold := by
    intro n
    induction n with
    | zero =>
      intro threshold low
      exact max_eq_right (by simpa [Scalar.ofNat_real] using low)
    | succ n ih =>
      intro threshold low
      refine ih _ ?_
      change max (threshold / ((10 : ℕ) : ℝ)) o.epsilon / 10 ^ (n + 1) ≤ o.epsilon
      rcases max_choice (threshold / ((10 : ℕ) : ℝ)) o.epsilon with larger | larger
      · rw [larger, div_div, Nat.cast_ofNat, ← pow_succ']
        exact low
      · rw [larger]
        exact div_le_self positive.le (one_le_pow₀ (by norm_num))
  obtain ⟨n, large⟩ := pow_unbounded_of_one_lt (threshold / o.epsilon) (by norm_num : (1 : ℝ) < 10)
  refine ⟨n, reaches n threshold ?_⟩
  rw [div_le_iff₀ (by positivity)]
  rw [div_lt_iff₀ positive] at large
  have more : (10 : ℝ) ^ n ≤ 10 ^ (n + 1) := pow_le_pow_right₀ (by norm_num) (Nat.le_succ n)
  nlinarith

/-- Passes with ever lower thresholds end if their fuel exceeds what is left to push and the number of
thresholds together. -/
theorem tighten_finishes {judges : ℝ → Judge σ M} {o : WalkOptions ℝ} (positive : 0 < o.epsilon)
    {bound : Nat} {roots : List Nat}
    (lawful : ∀ threshold, (judges (tightened o threshold)).Lawful W)
    (answers : ∀ threshold, (judges threshold).Answers W s) (spends : W.Spends good left)
    (met : ∀ u ∈ roots, W.met s u) {limit n : Nat} {threshold : ℝ} (reaches : Reaches o n threshold)
    (isGood : good m) (enough : n + left m < limit) (enough' : left m < bound) :
    Ends (tighten judges o bound roots limit threshold m) s record fun r _ _ => ∃ m', r = .ok m' := by
  induction limit generalizing s n threshold m record with
  | zero => exact absurd enough (Nat.not_lt_zero _)
  | succ limit ih =>
    rw [tighten]
    refine (visitAll_finishes left (0, m) met
      (fun v member s' record m' grows met' good' less =>
        pass_finishes (lawful threshold) (fun s'' grows' => answers _ s'' (W.grows_trans grows grows'))
          spends 1 met' good' (less.trans_lt enough') (less.trans_lt enough')) isGood).bind
      (fun e s' record' finishes => ?_) ?_
    · obtain ⟨-, after, equal, -⟩ := finishes
      cases equal
    rintro ⟨pushes, m₁⟩ s₁ record₁ ⟨grows, _, equal, good₁, less, fewer⟩
    cases equal
    simp only at less fewer ⊢
    split
    · exact ⟨m₁, rfl⟩
    rename_i goesOn
    have onward : ∃ n', Reaches o n' (tightened o threshold) ∧ n' + left m₁ < n + left m := by
      cases n with
      | zero =>
        -- the threshold is `epsilon` already, so something has been pushed
        have isEpsilon : tightened o threshold = o.epsilon := reaches
        have pushed : pushes ≠ 0 := by
          rintro rfl
          exact goesOn (by rw [isEpsilon]; simp)
        refine ⟨0, ?_, by have := fewer pushed; omega⟩
        rw [isEpsilon]
        exact max_eq_right (div_le_self positive.le (by simp [Scalar.ofNat_real]))
      | succ n => exact ⟨n, reaches, by omega⟩
    obtain ⟨n', reaches', sum⟩ := onward
    refine ih (fun threshold s' grows' => answers threshold s' (W.grows_trans grows grows'))
      (fun u member => W.met_mono grows (met u member)) reaches' good₁ (by omega)
      (less.trans_lt enough')

end Recording

/-! ### The provers' walks -/

section

variable {Γ M : Type} [Walkable Γ] [KnowsLinks Γ] [LawfulWalkable Γ] {w : Weighting ℝ}
  {o : WalkOptions ℝ} {s : Session Γ} {u : Nat}

omit [Walkable Γ] [LawfulWalkable Γ] in
/-- The links that a graph shows have no negative weight if no link has one. -/
theorem outOf_nonneg (weights : ∀ f, 0 ≤ w.weight f) {g : Γ} :
    ∀ u links, outOf w g u = some links → ∀ l ∈ links, 0 ≤ l.2 := by
  rintro u links known l member
  obtain ⟨shown, -, rfl⟩ := Option.map_eq_some_iff.1 known
  obtain ⟨link, -, rfl⟩ := List.mem_map.1 member
  exact weights link.features

theorem Walk.spends (checked : o.check = .ok ()) (alpha : 0 < o.alpha) (weights : ∀ f, 0 ≤ w.weight f)
    (ledger : M → Ledger) : (Walk.world (Γ := Γ) ledger o w).Spends (fun m => (ledger m).Sound)
      fun m => (ledger m).left o :=
  fun step sound => ⟨(step.sound checked (outOf_nonneg weights) sound).1,
    step.left_lt checked alpha (outOf_nonneg weights) sound⟩

theorem Expands.degree_eq (expands : Expands s.graph) (met : Met s.graph u) :
    ∃ shown : List Link,
      (Walk.degree u : Walk Γ ℝ) s =
        (.ok (shown.length : ℝ), { s with graph := (Walkable.degree s.graph u true).2 }) ∧
      KnowsLinks.known (Walkable.degree s.graph u true).2 u = some shown := by
  obtain ⟨n, found⟩ := (expands s.graph .none u met).2
  obtain ⟨shown, known, rfl⟩ := LawfulWalkable.known_degree _ _ _ found
  refine ⟨shown, ?_, known⟩
  rw [Walk.degree_apply, found]
  rfl

theorem Expands.weighLinks_eq (expands : Expands s.graph) (met : Met s.graph u) :
    ∃ links tally, (Walk.weighLinks w u true : Walk Γ _) s =
        (.ok (links, (links.map (·.2)).sum),
          { graph := (Walkable.links s.graph u true).2, tally }) ∧
      outOf w (Walkable.links s.graph u true).2 u = some links := by
  obtain ⟨shown, found⟩ := (expands s.graph .none u met).1
  obtain ⟨tally, weighs⟩ := Walk.weighLinks_apply w u true s
  refine ⟨Walk.weighed w shown, tally, ?_, ?_⟩
  · rw [weighs, found, ← Scalar.sum_real]
    rfl
  · exact congrArg (Option.map _) (LawfulWalkable.known_links _ _ _ found)

/-- On a graph that always gives links, what a pass asks at a node is answered. -/
theorem PushOps.judge_answers (F : PushOps ℝ M) {ledger : M → Ledger} (expands : Expands s.graph)
    (threshold : ℝ) : (F.judge w threshold).Answers (Walk.world ledger o w) s := by
  intro s' asked u met m
  have expands' : Expands s'.graph := expands.mono asked
  obtain ⟨shown, counts, -⟩ := expands'.degree_eq met
  unfold judge
  rw [bind_apply, counts]
  simp only
  split
  · exact ⟨_, rfl⟩
  have counted : Asked s'.graph (Walkable.degree s'.graph u true).2 := Asked.none.degree met
  obtain ⟨links, tally, weighs, -⟩ := Expands.weighLinks_eq (w := w)
    (s := { s' with graph := (Walkable.degree s'.graph u true).2 }) (expands'.mono counted)
    (met.mono counted.grows)
  rw [bind_apply, weighs]
  simp only
  split
  · exact ⟨_, rfl⟩
  · exact ⟨_, rfl⟩

/-- A walk in passes ends if its bound is large enough. -/
theorem PushOps.tighten_finishes {F : PushOps ℝ M} {ledger : M → Ledger} (lawful : F.Lawful o ledger)
    (checked : o.check = .ok ()) (alpha : 0 < o.alpha) (weights : ∀ f, 0 ≤ w.weight f)
    (expands : Expands s.graph) {seed : M} (sound : (ledger seed).Sound) :
    ∃ enough, ∀ bound, enough ≤ bound →
      ∃ m, (F.tighten w o bound (Walkable.start s.graph) bound 1 seed s).1 = .ok m := by
  have positive := (WalkOptions.bounds_of_check checked).2.2
  obtain ⟨n, reaches⟩ := Recording.exists_reaches positive 1
  refine ⟨n + (ledger seed).left o + 1, fun bound enough => ?_⟩
  have finishes : Recording.Ends (Recording.tighten (F.judge w) o bound [Walkable.start s.graph] bound 1
      seed) s [seed] fun r _ _ => ∃ m, r = .ok m :=
    Recording.tighten_finishes positive
      (fun threshold => lawful_judge lawful (Walk.epsilon_le_tightened threshold))
      (fun threshold => F.judge_answers expands threshold) (Walk.spends checked alpha weights ledger)
      (fun u member => (by rw [List.mem_singleton.1 member]; exact Met.start)) reaches sound
      (by omega) (by omega)
  obtain ⟨m, done⟩ := finishes
  exact ⟨m, (erases_tighten _ _ _ _ s [seed]).1.symm.trans done⟩

namespace Walk

/-- The walk over maps ends if its bound is large enough. -/
theorem pushSparse_finishes (checked : o.check = .ok ()) (alpha : 0 < o.alpha)
    (weights : ∀ f, 0 ≤ w.weight f) (expands : Expands s.graph) :
    ∃ enough, ∀ bound, enough ≤ bound → ∃ m, (pushSparse w o bound s).1 = .ok m := by
  have seeded : (SparseMass.seed (Walkable.start s.graph) : SparseMass ℝ).ledger.Sound := by
    rw [SparseMass.ledger_seed]
    exact Ledger.sound_single _
  obtain ⟨enough, ends⟩ := PushOps.tighten_finishes (PushOps.lawful_sparse o) checked alpha weights
    expands seeded
  refine ⟨enough, fun bound isEnough => ?_⟩
  change ∃ m, (tightenSparse w o bound (Walkable.start s.graph) bound 1 _ s).1 = .ok m
  rw [tightenSparse_eq]
  exact ends bound isEnough

/-- So does the walk over arrays. -/
theorem pushDense_finishes (checked : o.check = .ok ()) (alpha : 0 < o.alpha)
    (weights : ∀ f, 0 ≤ w.weight f) (expands : Expands s.graph) :
    ∃ enough, ∀ bound, enough ≤ bound → ∃ m, (pushDense w o bound s).1 = .ok m := by
  have seeded : (DenseMass.seed (Walkable.start s.graph) : DenseMass ℝ).ledger.Sound := by
    rw [DenseMass.ledger_seed]
    exact Ledger.sound_single _
  obtain ⟨enough, ends⟩ := PushOps.tighten_finishes (PushOps.lawful_dense o) checked alpha weights
    expands seeded
  refine ⟨enough, fun bound isEnough => ?_⟩
  change ∃ m, (tightenDense w o bound (Walkable.start s.graph) bound 1 _ s).1 = .ok m
  rw [tightenDense_eq]
  exact ends bound isEnough

end Walk

end

/-! ### A queue -/

namespace PushOps

variable {M : Type} {F : PushOps ℝ M} {threshold degree : ℝ} {u : Nat} {links : List (Nat × ℝ)}
  {total : ℝ}

/-- More fuel drains a node alike. -/
theorem drain_mono {limit limit' : Nat} {m m' : M} (more : limit ≤ limit')
    (done : F.drain threshold degree u links total limit m = some m') :
    F.drain threshold degree u links total limit' m = some m' := by
  induction limit generalizing limit' m with
  | zero => cases done
  | succ limit ih =>
    obtain ⟨limit', rfl⟩ : ∃ k, limit' = k + 1 := ⟨limit' - 1, by omega⟩
    rw [drain] at done ⊢
    split at done
    · rename_i above
      rw [if_pos above]
      exact ih (by omega) done
    · rename_i below
      rw [if_neg below]
      exact done

/-- A node is drained if the fuel exceeds what is left to push. -/
theorem drain_finishes {good : M → Prop} (left : M → ℕ)
    (step : ∀ m, threshold < F.residual m u / degree → good m →
      good (F.push u links total m) ∧ left (F.push u links total m) < left m)
    {limit : Nat} {m : M} (isGood : good m) (enough : left m < limit) :
    ∃ m', F.drain threshold degree u links total limit m = some m' ∧ good m' := by
  induction limit generalizing m with
  | zero => exact absurd enough (Nat.not_lt_zero _)
  | succ limit ih =>
    rw [drain]
    split
    · rename_i above
      obtain ⟨good', fewer⟩ := step m above isGood
      exact ih good' (by omega)
    · exact ⟨m, rfl, isGood⟩

end PushOps

namespace Walk

variable {Γ : Type} [Walkable Γ] [KnowsLinks Γ] [LawfulWalkable Γ] {w : Weighting ℝ}
  {o : WalkOptions ℝ}

/-- On a graph that always gives links, entries are made for all nodes. -/
theorem enqueue_finishes {s : Session Γ} (expands : Expands s.graph) (m : DenseMass ℝ)
    {nodes : List Nat} (met : ∀ v ∈ nodes, Met s.graph v) (q : PushQueue ℝ) :
    ∃ q', (enqueue m q nodes s).1 = .ok q' := by
  unfold enqueue
  induction nodes generalizing s q with
  | nil => exact ⟨q, rfl⟩
  | cons v rest ih =>
    obtain ⟨shown, counts, -⟩ := expands.degree_eq (met v (by simp))
    have asked : Asked s.graph (Walkable.degree s.graph v true).2 := Asked.none.degree (met v (by simp))
    rw [List.foldlM_cons, bind_assoc, bind_apply, counts]
    simp only [pure_bind]
    exact ih (s := { s with graph := (Walkable.degree s.graph v true).2 }) (expands.mono asked)
      (fun v member => (met v (by simp [member])).mono asked.grows) _

/-- A turn of the loop ends if its bound is large enough. An entry that is out of date leaves less to wait
for. -/
theorem turn_finishes (checked : o.check = .ok ()) (alpha : 0 < o.alpha) (weights : ∀ f, 0 ≤ w.weight f)
    {s : Session Γ} (expands : Expands s.graph) {p : Stand ℝ} (waits : ∀ e ∈ p.queue, Met s.graph e.node)
    (sound : p.mass.ledger.Sound) {head : QueueEntry ℝ} {q : PushQueue ℝ}
    (popped : p.queue.pop? = some (head, q)) :
    ∃ p' s' enough, (∀ bound, enough ≤ bound → p.turn w o bound head q s = (.ok p', s')) ∧
      Expands s'.graph ∧ (∀ e ∈ p'.queue, Met s'.graph e.node) ∧ p'.mass.ledger.Sound ∧
      (p'.accepted = p.accepted + 1 ∨
        p'.accepted = p.accepted ∧ p'.queue.waiting.degree < p.queue.waiting.degree) := by
  have met := waits head (PushQueue.pop?_eq_some popped).1
  obtain ⟨shown, counts, known⟩ := expands.degree_eq met
  have asked : Asked s.graph (Walkable.degree s.graph head.node true).2 := Asked.none.degree met
  set s₁ : Session Γ := { s with graph := (Walkable.degree s.graph head.node true).2 } with isS₁
  have expands₁ : Expands s₁.graph := expands.mono asked
  have waits₁ : ∀ e ∈ q, Met s₁.graph e.node := fun e member =>
    (waits e (PushQueue.mem_of_pop? popped member)).mono asked.grows
  by_cases current : entryAt p.mass.residual head.node / shown.length == head.score
  case neg =>
    exact ⟨_, s₁, 0, fun _ _ => (Stand.Turns.stale counts current).turn, expands₁, waits₁, sound,
      .inr ⟨rfl, PushQueue.waiting_lt_of_pop? popped⟩⟩
  by_cases low : head.score ≤ o.epsilon
  case pos =>
    exact ⟨_, s₁, 0, fun _ _ => (Stand.Turns.low counts current low).turn, expands₁, waits₁, sound, .inl rfl⟩
  have met₁ : Met s₁.graph head.node := met.mono asked.grows
  obtain ⟨links, tally, weighs, isOut⟩ := expands₁.weighLinks_eq (w := w) met₁
  have asked' : Asked s₁.graph (Walkable.links s₁.graph head.node true).2 := Asked.none.links met₁
  set s₂ : Session Γ := { graph := (Walkable.links s₁.graph head.node true).2, tally } with isS₂
  have expands₂ : Expands s₂.graph := expands₁.mono asked'
  have waits₂ : ∀ e ∈ q, Met s₂.graph e.node := fun e member => (waits₁ e member).mono asked'.grows
  have exceeds : o.epsilon < entryAt p.mass.residual head.node / shown.length := by
    rw [eq_of_beq current]
    exact lt_of_not_ge low
  have lawful := PushOps.lawful_queued o
  by_cases weightless : (links.map (·.2)).sum == 0
  case pos =>
    have step : p.mass.ledger.PushesTo o (outOf w s₂.graph) (p.mass.absorb head.node).ledger := by
      refine ⟨head.node, links, shown.length, isOut, exceeds, ?_⟩
      rw [if_pos (eq_of_beq weightless)]
      exact lawful.absorb head.node p.mass
    exact ⟨_, s₂, 0, fun _ _ => (Stand.Turns.absorb counts current low weighs weightless).turn, expands₂,
      waits₂, (step.sound checked (outOf_nonneg weights) sound).1, .inl rfl⟩
  have drained : ∃ m, (PushOps.queued o).drain o.epsilon (shown.length : ℝ) head.node links
      (links.map (·.2)).sum (p.mass.ledger.left o + 1) p.mass = some m ∧ m.ledger.Sound := by
    refine PushOps.drain_finishes (fun m => m.ledger.left o) (fun m above good => ?_) sound
      (Nat.lt_succ_self _)
    have step : m.ledger.PushesTo o (outOf w s₂.graph)
        ((PushOps.queued o).push head.node links (links.map (·.2)).sum m).ledger := by
      refine ⟨head.node, links, shown.length, isOut, above, ?_⟩
      rw [if_neg fun zero => weightless (beq_iff_eq.2 zero)]
      exact lawful.push head.node links _ m
    exact ⟨(step.sound checked (outOf_nonneg weights) good).1,
      step.left_lt checked alpha (outOf_nonneg weights) good⟩
  obtain ⟨m, drains, sound'⟩ := drained
  have touched : ∀ v ∈ distinctSorted (head.node :: links.map (·.1)), Met s₂.graph v := by
    intro v member
    obtain rfl | member := List.mem_cons.1 (mem_distinctSorted member)
    · exact met₁.mono asked'.grows
    · obtain ⟨l, isLink, rfl⟩ := List.mem_map.1 member
      obtain ⟨shown', known', rfl⟩ := Option.map_eq_some_iff.1 isOut
      obtain ⟨link, isShown, rfl⟩ := List.mem_map.1 isLink
      exact .child known' isShown
  obtain ⟨q', enters⟩ := enqueue_finishes expands₂ m touched q
  have enqueued : Recording.Ends _ s₂ [] _ := Recording.ends_enqueue (m := m) touched waits₂
  obtain ⟨-, asked'', waits₃⟩ := enqueued
  refine ⟨{ mass := m, queue := q', accepted := p.accepted + 1 }, _, p.mass.ledger.left o + 1,
    fun bound enough => ?_, expands₂.mono asked'', waits₃ q' enters, sound', .inl rfl⟩
  have drains' := PushOps.drain_mono enough drains
  rw [← DenseMass.drainAll_eq] at drains'
  exact (Stand.Turns.push counts current low weighs weightless drains' (Prod.ext enters rfl)).turn

/-- Serving a queue ends if the fuel is large enough. -/
theorem serve_finishes (checked : o.check = .ok ()) (alpha : 0 < o.alpha)
    (weights : ∀ f, 0 ≤ w.weight f) {s : Session Γ} (expands : Expands s.graph) {p : Stand ℝ}
    (waits : ∀ e ∈ p.queue, Met s.graph e.node) (sound : p.mass.ledger.Sound) {most : Nat}
    (within : p.accepted ≤ most) :
    ∃ enough, ∀ limit, enough ≤ limit → ∀ bound, enough ≤ bound →
      ∃ m, (serve w o bound limit (most - p.accepted) p.mass p.queue s).1 = .ok m := by
  -- a turn leaves fewer entries to accept, or as many and less to wait for
  induction left : most - p.accepted using Nat.strong_induction_on generalizing s p with
  | _ n later =>
  induction waiting : p.queue.waiting.degree using Nat.strong_induction_on generalizing s p with
  | _ k next =>
  subst left waiting
  obtain all | more := within.eq_or_lt
  · refine ⟨1, fun limit enough bound _ => ⟨p.mass, ?_⟩⟩
    obtain ⟨limit, rfl⟩ : ∃ k, limit = k + 1 := ⟨limit - 1, by omega⟩
    rw [all, Nat.sub_self, serve]
    · rfl
    · exact Nat.succ_ne_zero _
  cases popped : p.queue.pop? with
  | none =>
    refine ⟨1, fun limit enough bound _ => ⟨p.mass, ?_⟩⟩
    obtain ⟨limit, rfl⟩ : ∃ k, limit = k + 1 := ⟨limit - 1, by omega⟩
    rw [serve_of_empty w o bound limit more popped]
    rfl
  | some entry =>
    obtain ⟨head, q⟩ := entry
    obtain ⟨p', s', enough, turns, expands', waits', sound', progress⟩ :=
      turn_finishes checked alpha weights expands waits sound popped
    have goesOn : ∃ enough, ∀ limit, enough ≤ limit → ∀ bound, enough ≤ bound →
        ∃ m, (serve w o bound limit (most - p'.accepted) p'.mass p'.queue s').1 = .ok m := by
      obtain accepts | ⟨same, fewer⟩ := progress
      · exact later (most - p'.accepted) (by omega) expands' waits' sound' (by omega) rfl
      · rw [same]
        exact next _ fewer expands' waits' sound' (by omega) (by omega) rfl
    obtain ⟨enough', ends⟩ := goesOn
    refine ⟨max enough (enough' + 1), fun limit isEnough bound isEnough' => ?_⟩
    obtain ⟨limit, rfl⟩ : ∃ k, limit = k + 1 := ⟨limit - 1, by omega⟩
    rw [serve_of_entry w o bound limit more popped, bind_of_ok (turns bound (by omega))]
    exact ends limit (by omega) bound (by omega)

/-- The walk by priority ends if its bound is large enough. -/
theorem pushByPriority_finishes (checked : o.check = .ok ()) (alpha : 0 < o.alpha)
    (weights : ∀ f, 0 ≤ w.weight f) {s : Session Γ} (expands : Expands s.graph) :
    ∃ enough, ∀ bound, enough ≤ bound → ∃ m, (pushByPriority w o bound s).1 = .ok m := by
  obtain ⟨shown, counts, -⟩ := expands.degree_eq Met.start
  have asked : Asked s.graph (Walkable.degree s.graph (Walkable.start s.graph) true).2 :=
    Asked.none.degree Met.start
  have seeded : (DenseMass.seed (Walkable.start s.graph) : DenseMass ℝ).ledger.Sound := by
    rw [DenseMass.ledger_seed]
    exact Ledger.sound_single _
  obtain ⟨enough, ends⟩ := serve_finishes checked alpha weights
    (s := { s with graph := (Walkable.degree s.graph (Walkable.start s.graph) true).2 })
    (p := ⟨.seed (Walkable.start s.graph),
      (∅ : PushQueue ℝ).push { score := 1 / shown.length, node := Walkable.start s.graph }, 0⟩)
    (expands.mono asked) (fun e member => by
      obtain rfl | member := PushQueue.mem_push member
      · exact Met.start.mono asked.grows
      · exact absurd member Std.TreeMap.not_mem_emptyc) seeded
    (Nat.zero_le (Scalar.ceil (1 / o.epsilon)))
  refine ⟨enough, fun bound isEnough => ?_⟩
  have started : pushByPriority w o bound s =
      serve w o bound bound (Scalar.ceil (1 / o.epsilon)) (.seed (Walkable.start s.graph))
        ((∅ : PushQueue ℝ).push { score := 1 / shown.length, node := Walkable.start s.graph })
        { s with graph := (Walkable.degree s.graph (Walkable.start s.graph) true).2 } := by
    change ((Walk.degree (Walkable.start s.graph) : Walk Γ ℝ) >>= _) s = _
    rw [bind_apply, counts]
    rfl
  rw [started]
  exact ends bound isEnough bound isEnough

end Walk

end ProofWalk
