import ProofWalk.Proofs.Comparison
import ProofWalk.Proofs.Prover.Passes

/-!
# What a pass leaves above the threshold

A pass hands residual back to nodes that it has been to before, along cycles and loops, and keeps no
record of where it has been. Yet no node other than the start is above the threshold after a pass unless
it was before: whatever receives residual is visited once more.

## Main definitions

* `Verdict.Clears`, `Judge.Clears` — what is done at one node leaves another one below the threshold,
  or goes on to it
* `PushOps.Local` — pushes change no residual but that of the nodes along the links

## Main results

* `Recording.pass_clears` — what a pass as a whole leaves above the threshold
* `PushOps.pass_clears` — a pass over maps or arrays
* `zero_le_iterate_tightened` — thresholds are never below zero
-/

namespace ProofWalk

/-- What a verdict at `u` does to node `v`, which may be above a threshold: if the verdict is to leave or
to settle `u`, that does not lift `v`, and `v` is not above if it is `u`; if it is to spread the residual
of `u`, then `u` is not above after the last push, and no other node is lifted that is not visited. -/
def Verdict.Clears {M : Type} (u v : Nat) (above : M → Prop) (m : M) : Verdict M → Prop
  | leave => v = u → ¬above m
  | settle m' => above m' → above m ∧ v ≠ u
  | spread exceeds push onward =>
    (∀ m', exceeds m' = false → v = u → ¬above m') ∧
      (v ≠ u → v ∉ onward → ∀ m', above (push m') → above m')

/-- Whatever a judge does, it leaves node `v` above the threshold only if that was above before, or goes
on to it. What is known of `v` in the end is known of it throughout. -/
def Judge.Clears {σ M : Type} (judge : Judge σ M) (v : Nat) (known : σ → Prop) (above : M → Prop) :
    Prop :=
  ∀ {u m s verdict s'}, judge u m s = (.ok verdict, s') → known s' →
    known s ∧ verdict.Clears u v above m

/-! ### Passes with a record -/

namespace Recording

variable {σ M : Type} {judge : Judge σ M} {isTooDeep : Nat → Bool} {v : Nat} {known : σ → Prop}
  {above : M → Prop}

theorem look_eq_ok {α : Type} {x : ExceptT Error (StateM σ) α} {a : α} {s s' : σ} {record record' : List M}
    (done : (look x : Recording σ M α) (s, record) = (.ok a, s', record')) :
    x s = (.ok a, s') ∧ record = record' := by
  obtain ⟨result, rest⟩ := Prod.mk.inj done
  obtain ⟨state, same⟩ := Prod.mk.inj rest
  exact ⟨Prod.ext result state, same⟩

theorem note_bind {α : Type} (m : M) (f : Unit → Recording σ M α) (s : σ × List M) :
    (note m >>= f) s = f () (s.1, m :: s.2) :=
  bind_of_ok rfl f

/-- What a computation gives and leaves behind it gives with a record as well. -/
theorem Erases.eq_ok {α : Type} {x : Recording σ M α} {y : ExceptT Error (StateM σ) α} {a : α} {s s' : σ}
    (erases : x.Erases y) (done : y s = (.ok a, s')) (record : List M) :
    ∃ record', x (s, record) = (.ok a, s', record') := by
  obtain ⟨result, state⟩ := erases s record
  rw [done] at result state
  exact ⟨_, Prod.ext result (Prod.ext state rfl)⟩

variable (above) in
/-- Draining ends with a mass that exceeds nothing, and lifts no node that a push does not lift. -/
theorem drain_clears {exceeds : M → Bool} {push : M → M} (limit : Nat) {m m' : M} {s s' : σ × List M}
    (done : drain exceeds push limit m s = (.ok m', s')) :
    s'.1 = s.1 ∧ exceeds m' = false ∧ ((∀ m, above (push m) → above m) → above m' → above m) := by
  induction limit generalizing m s with
  | zero => cases done
  | succ limit ih =>
    rw [drain] at done
    split at done
    · rw [note_bind] at done
      obtain ⟨state, stops, lifts⟩ := ih done
      exact ⟨state, stops, fun each isAbove => each m (lifts each isAbove)⟩
    · rename_i stops
      obtain ⟨rfl, rfl⟩ := pure_eq_ok done
      exact ⟨rfl, Bool.eq_false_of_not_eq_true stops, fun _ isAbove => isAbove⟩

/-- Visits in turn clear what every one of them clears. -/
theorem visitAll_clears {visit : Nat → M → Recording σ M (Nat × M)}
    (each : ∀ {u m s r s'}, visit u m s = (.ok r, s') → known s'.1 →
      known s.1 ∧ (above r.2 → above m ∧ v ≠ u))
    {nodes : List Nat} {before r : Nat × M} {s s' : σ × List M}
    (done : visitAll visit nodes before s = (.ok r, s')) (isKnown : known s'.1) :
    known s.1 ∧ (above r.2 → above before.2 ∧ v ∉ nodes) := by
  unfold visitAll at done
  induction nodes generalizing before s with
  | nil =>
    obtain ⟨rfl, rfl⟩ := pure_eq_ok done
    exact ⟨isKnown, fun isAbove => ⟨isAbove, List.not_mem_nil⟩⟩
  | cons u rest ih =>
    rw [List.foldlM_cons] at done
    obtain ⟨between, s₁, first, others⟩ := bind_eq_ok done
    obtain ⟨result, s₂, visited, counted⟩ := bind_eq_ok first
    obtain ⟨rfl, rfl⟩ := pure_eq_ok counted
    obtain ⟨isKnown', lifts⟩ := ih others
    obtain ⟨isKnown'', lifts'⟩ := each visited isKnown'
    refine ⟨isKnown'', fun isAbove => ?_⟩
    obtain ⟨above', unvisited⟩ := lifts isAbove
    obtain ⟨above'', other⟩ := lifts' above'
    exact ⟨above'', List.not_mem_cons_of_ne_of_not_mem other unvisited⟩

/-- After a pass from `u` a node is above the threshold only if it was before, and is not `u`. The
induction is on how deep the pass goes: what a push lifts is visited after the last push, and what the
visits of some nodes lift is visited by a later one of them. -/
theorem pass_clears (clears : judge.Clears v known above) {bound limit depth u : Nat} {m : M} {r : Nat × M}
    {s s' : σ × List M} (unlimited : ∀ depth, isTooDeep depth = false)
    (done : pass judge isTooDeep bound limit depth u m s = (.ok r, s')) (isKnown : known s'.1) :
    known s.1 ∧ (above r.2 → above m ∧ v ≠ u) := by
  induction limit generalizing depth u m r s s' with
  | zero => cases done
  | succ limit ih =>
    unfold pass at done
    rw [if_neg (by rw [unlimited]; exact Bool.false_ne_true)] at done
    obtain ⟨verdict, ⟨s₁, record⟩, looked, done⟩ := bind_eq_ok done
    obtain ⟨judged, -⟩ := look_eq_ok looked
    cases verdict with
    | leave =>
      obtain ⟨rfl, rfl⟩ := pure_eq_ok done
      obtain ⟨isKnown', leaves⟩ := clears judged isKnown
      exact ⟨isKnown', fun isAbove => ⟨isAbove, fun same => leaves same isAbove⟩⟩
    | settle m' =>
      simp only [note_bind] at done
      obtain ⟨rfl, rfl⟩ := pure_eq_ok done
      exact clears judged isKnown
    | spread exceeds push onward =>
      obtain ⟨m₁, s₂, drained, visits⟩ := bind_eq_ok done
      obtain ⟨isKnown', lifts⟩ := visitAll_clears ih visits isKnown
      obtain ⟨state, stops, drains⟩ := drain_clears above bound drained
      rw [state] at isKnown'
      obtain ⟨isKnown'', stopped, unvisited⟩ := clears judged isKnown'
      refine ⟨isKnown'', fun isAbove => ?_⟩
      obtain ⟨above₁, notOnward⟩ := lifts isAbove
      have other : v ≠ u := fun same => stopped m₁ stops same above₁
      exact ⟨drains (unvisited other notOnward) above₁, other⟩

end Recording

/-! ### Passes over maps and arrays -/

namespace PushOps

section

variable {K M Γ : Type} [Scalar K]

/-- Pushes change no residual but that of their node and of the nodes that links with a weight lead to,
and to settle all the residual of a node leaves it none. -/
structure Local (F : PushOps K M) : Prop where
  push : ∀ {u v links total}, v ≠ u → (∀ l ∈ links, l.1 = v → (l.2 == 0) = true) → ∀ m,
    F.residual (F.push u links total m) v = F.residual m v
  absorb : ∀ u v m, F.residual (F.absorb u m) v = if v = u then 0 else F.residual m v

theorem local_sparse (o : WalkOptions K) : (sparse o).Local where
  push {u v links total} other untouched m := by
    change Scores.at (List.foldl _ (m.residual.insert u _) links) v = _
    refine List.foldlRecOn links _ (motive := fun residual => Scores.at residual v = m.residual.at v) ?_
      fun residual same l member => ?_
    · rw [Scores.at_insert, if_neg other]
    · simp only
      split
      · exact same
      · rename_i weight
        rw [Scores.at_add, if_neg fun same => weight (untouched l member same.symm), same]
  absorb u v m := Scores.at_insert ..

theorem local_dense (o : WalkOptions K) : (dense o).Local where
  push {u v links total} other untouched m := by
    change entryAt (List.foldl _ (putAt m.residual u _) links) v = _
    refine List.foldlRecOn links _ (motive := fun residual => entryAt residual v = entryAt m.residual v) ?_
      fun residual same l member => ?_
    · rw [entryAt_putAt, if_neg other]
    · simp only
      split
      · exact same
      · rename_i weight
        rw [entryAt_addAt, if_neg fun same => weight (untouched l member same.symm), same]
  absorb u v m := entryAt_putAt ..

end

section

variable {K M Γ : Type} [Scalar K] [LawfulComparison K] [Walkable Γ] [KnowsLinks Γ] [LawfulWalkable Γ]
  {F : PushOps K M} {w : Weighting K} {o : WalkOptions K} {threshold : K}

/-- What a pass does at a node leaves another one below the threshold, or goes on to it. What the graph
has shown in the end tells how many links the other one has; that this is not the start is kept with what
is above, as the start is known to stay only then. -/
theorem clears_judge (isLocal : F.Local) (nonneg : ¬threshold < 0) {v n : Nat} {last : Γ}
    (count : ∀ links, KnowsLinks.known last v = some links → links.length = n) :
    (F.judge w threshold).Clears v (fun s => Grows s.graph last)
      fun m => v ≠ Walkable.start last ∧ threshold < F.residual m v / Scalar.ofNat n := by
  intro u m s verdict s' judged grows
  unfold judge at judged
  obtain ⟨d, s₁, counted, judged⟩ := bind_eq_ok judged
  obtain ⟨grows₁, shown, known, rfl⟩ := Walk.degree_shown counted
  -- the residuals of `u` and of `v` are shared among the same number of links if the nodes are the same
  have degree (stays : Grows s₁.graph last) (same : v = u) : shown.length = n :=
    count shown (stays.known v shown (same ▸ known))
  split at judged
  · rename_i below
    obtain ⟨rfl, rfl⟩ := pure_eq_ok judged
    refine ⟨grows₁.trans grows, fun same isAbove => ?_⟩
    rw [same, ← degree grows same] at isAbove
    exact LawfulComparison.not_lt_of_le below isAbove.2
  obtain ⟨⟨links, total⟩, s₂, weighs, judged⟩ := bind_eq_ok judged
  obtain ⟨grows₂, -, -⟩ := Walk.weighLinks_shown weighs
  simp only at judged
  split at judged
  · obtain ⟨rfl, rfl⟩ := pure_eq_ok judged
    refine ⟨grows₁.trans (grows₂.trans grows), fun ⟨notStart, isAbove⟩ => ?_⟩
    rw [isLocal.absorb] at isAbove
    split at isAbove
    · exact absurd isAbove (LawfulComparison.not_lt_zero_div _ nonneg)
    · rename_i other
      exact ⟨⟨notStart, isAbove⟩, other⟩
  · obtain ⟨root, s₃, asked, judged⟩ := bind_eq_ok judged
    cases asked
    obtain ⟨rfl, rfl⟩ := pure_eq_ok judged
    refine ⟨grows₁.trans (grows₂.trans grows), fun m' stops same isAbove => ?_,
      fun other unvisited m' ⟨notStart, isAbove⟩ => ⟨notStart, ?_⟩⟩
    · rw [same, ← degree (grows₂.trans grows) same] at isAbove
      exact of_decide_eq_false stops isAbove.2
    · rwa [isLocal.push other fun l member same => ?_] at isAbove
      -- a link to `v` that is not followed has no weight
      by_contra weight
      refine unvisited (List.mem_map.2 ⟨l, List.mem_filter.2 ⟨member, ?_⟩, same⟩)
      rw [decide_eq_false (same ▸ grows.start ▸ notStart), Bool.eq_false_of_not_eq_true weight]
      rfl

/-- After a pass from `u` a node other than the start is above the threshold only if it was before, and
is not `u`. -/
theorem pass_clears (isLocal : F.Local) (unlimited : o.maxTreeDepth = none) (nonneg : ¬threshold < 0)
    {bound limit depth u v n : Nat} {m : M} {r : Nat × M} {s s' : Session Γ}
    (done : F.pass w o bound threshold limit depth u m s = (.ok r, s'))
    (other : v ≠ Walkable.start s.graph) (degree : (Walkable.degree s'.graph v true).1 = .ok n)
    (isAbove : threshold < F.residual r.2 v / Scalar.ofNat n) :
    threshold < F.residual m v / Scalar.ofNat n ∧ v ≠ u := by
  -- what the degree counts has been shown before, if anything has been
  have count : ∀ links, KnowsLinks.known s'.graph v = some links → links.length = n := by
    intro links known
    obtain ⟨links', known', rfl⟩ := LawfulWalkable.known_degree _ _ _ degree
    obtain rfl := Option.some.inj
      (((LawfulWalkable.grows_degree s'.graph v true).known v links known).symm.trans known')
    rfl
  obtain ⟨record, recorded⟩ := (erases_pass threshold limit depth u m).eq_ok done []
  obtain ⟨grows, lifts⟩ := Recording.pass_clears (clears_judge isLocal nonneg count)
    (fun depth => by rw [WalkOptions.isTooDeep, unlimited]; rfl) recorded (.refl s'.graph)
  obtain ⟨⟨-, before⟩, different⟩ := lifts ⟨by rwa [grows.start], isAbove⟩
  exact ⟨before, different⟩

end

end PushOps

/-! ### Thresholds -/

/-- A tenth of a threshold, or more, is not below zero. -/
theorem zero_le_tightened {K : Type} [Scalar K] [LawfulComparison K] (o : WalkOptions K) {threshold : K}
    (nonneg : 0 ≤ threshold) : 0 ≤ tightened o threshold :=
  LawfulComparison.zero_le_max _ (LawfulComparison.zero_le_tenth nonneg)

/-- No threshold of a walk is below zero: the first is one, and every other one is tightened. -/
theorem zero_le_iterate_tightened {K : Type} [Scalar K] [LawfulComparison K] (o : WalkOptions K) (k : Nat) :
    0 ≤ (tightened o)^[k] (1 : K) := by
  induction k with
  | zero => exact LawfulComparison.zero_le_one
  | succ k ih =>
    rw [Function.iterate_succ_apply']
    exact zero_le_tightened o ih

end ProofWalk
