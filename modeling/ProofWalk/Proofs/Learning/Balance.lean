import ProofWalk.Proofs.Exact
import ProofWalk.Learning.Push
import ProofWalk.Proofs.Learning.Probabilities
import ProofWalk.Proofs.Prover.Balance

/-!
# Record of the learner's walk

The local push of the learner does to scores what the provers' pushes do to mass, whatever it does to
slopes. So its walk has a record of pushes as theirs have, and there is one account of what pushes
preserve, for every walk: what all mass has gained and is promised together is what the start was
promised.

## Main definitions

* `DualMass.ledger` — scores as a ledger
* `GradedPush.judge` — what a pass does at a node
* `GradedPush.recordWalk` — the walk with a record

## Main results

* `DualMass.ledger_push`, `DualMass.ledger_absorb` — what a push does to scores
* `GradedPush.isRecord_walk` — what is on the record
* `pushes_balanced` — after every push of every walk the books are in order
-/

namespace ProofWalk

open Finsupp

/-! ### Scores -/

namespace DualScores

/-- Slopes do not matter to scores. -/
theorem score_foldl_addSlope {K : Type} [Scalar K] (slopes : SparseRow K) (v : Nat) (f : K → K)
    (s : DualScores K) : (slopes.foldl (fun s (k, d) => s.addSlope v k (f d)) s).score = s.score := by
  induction slopes generalizing s with
  | nil => rfl
  | cons slope rest ih => exact ih _

theorem arrayFinsupp_zeros (nodes features : Nat) :
    arrayFinsupp (zeros nodes features : DualScores ℝ).score = 0 := by
  change arrayFinsupp (Array.replicate (nodes + 1) 0) = 0
  rw [← arrayFinsupp_empty, ← arrayFinsupp_filled #[] (nodes + 1), Array.empty_append]

/-- What a walk starts with. -/
theorem seeded_spec {nodes root : Nat} (inside : root ≤ nodes) (features : Nat) (scale : ℝ) :
    (seeded nodes features scale [(root, 1)]).score.size = nodes + 1 ∧
      arrayFinsupp (seeded nodes features scale [(root, 1)]).score = single root scale := by
  have size : (zeros nodes features : DualScores ℝ).score.size = nodes + 1 := Array.size_replicate
  have seeded : (seeded nodes features scale [(root, 1)]).score =
      (zeros nodes features : DualScores ℝ).score.modify root (· + scale * Scalar.ofFloat 1) := rfl
  rw [seeded, Array.size_modify, size, arrayFinsupp_modify (by rw [size]; omega), arrayFinsupp_zeros,
    zero_add, Scalar.ofFloat_one, mul_one]
  exact ⟨rfl, rfl⟩

end DualScores

namespace DualMass

variable {o : WalkOptions ℝ} {squash : Squash} {p : Parameters ℝ} {g : LearningGraph}
  {t : Transitions ℝ}

/-- The scores of settled and residual mass. -/
noncomputable def ledger (m : DualMass ℝ) : Ledger :=
  { settled := arrayFinsupp m.settled.score, residual := arrayFinsupp m.residual.score }

/-- There is a score for every node of the graph. -/
structure Fits (m : DualMass ℝ) (g : LearningGraph) : Prop where
  settled : m.settled.score.size = g.nodeCount + 1
  residual : m.residual.score.size = g.nodeCount + 1

/-- The scores after an edge has been given its part. -/
theorem score_along {K : Type} [Scalar K] {g : LearningGraph} {t : Transitions K} (scale score : K)
    (slopes : Array K) (residual : DualScores K) (e : Nat) :
    (along g t scale score slopes residual e).score =
      residual.score.modify (g.target e) (· + scale * t.at_ e * score) :=
  DualScores.score_foldl_addSlope _ _ _ _

/-- The edges of a node are given what a push passes on. -/
private theorem foldl_along {total score : ℝ} {slopes : Array ℝ} {edges : List Nat}
    (targets : ∀ e ∈ edges, g.target e ≤ g.nodeCount)
    (shares : ∀ e ∈ edges, t.at_ e = g.weightOf squash p e / total) {residual : DualScores ℝ}
    (size : residual.score.size = g.nodeCount + 1) :
    let residual' :=
      edges.foldl (along g t ((1 - o.alpha) * (1 - o.stay)) score slopes) residual
    residual'.score.size = g.nodeCount + 1 ∧
      arrayFinsupp residual'.score = arrayFinsupp residual.score +
        Ledger.passed o (edges.map fun e => (g.target e, g.weightOf squash p e)) total score := by
  induction edges generalizing residual with
  | nil => exact ⟨size, (add_zero _).symm⟩
  | cons e rest ih =>
    have step := score_along (g := g) (t := t) ((1 - o.alpha) * (1 - o.stay)) score slopes residual e
    obtain ⟨size', passed⟩ := ih (fun e member => targets e (List.mem_cons_of_mem _ member))
      (fun e member => shares e (List.mem_cons_of_mem _ member))
      (show (along g t ((1 - o.alpha) * (1 - o.stay)) score slopes residual e).score.size = _ by
        rw [step, Array.size_modify, size])
    refine ⟨size', passed.trans ?_⟩
    have inside : g.target e < residual.score.size := by
      rw [size]
      exact Nat.lt_succ_of_le (targets e (by simp))
    rw [step, arrayFinsupp_modify inside, List.map_cons, Ledger.passed_cons, shares e (by simp),
      add_assoc]

variable {m : DualMass ℝ} {u : Nat}

/-- A push does to scores what a push does to mass. -/
theorem ledger_push (fits : m.Fits g) (inside : u ≤ g.nodeCount)
    (targets : ∀ e ∈ g.edgesOf u, g.target e ≤ g.nodeCount)
    (shares : ∀ e ∈ g.edgesOf u, t.at_ e = g.weightOf squash p e / g.totalOf squash p u) :
    (m.push o g t u).Fits g ∧ (m.push o g t u).ledger =
      m.ledger.push o u (g.linksOf squash p u) (g.totalOf squash p u) := by
  have settledInside : u < m.settled.score.size := by
    rw [fits.settled]
    exact Nat.lt_succ_of_le inside
  have residualInside : u < m.residual.score.size := by
    rw [fits.residual]
    exact Nat.lt_succ_of_le inside
  obtain ⟨size, passed⟩ := foldl_along (o := o) targets shares
    (show (m.residual.put u ((1 - o.alpha) * o.stay * m.residual.at_ u)
      (· * ((1 - o.alpha) * o.stay))).score.size = _ from
        (Array.size_setIfInBounds ..).trans fits.residual)
  refine ⟨⟨(Array.size_modify ..).trans fits.settled, size⟩, ?_⟩
  refine congrArg₂ Ledger.mk (arrayFinsupp_modify settledInside _) (passed.trans ?_)
  exact congrArg (· + _) (arrayFinsupp_set residualInside _)

/-- Settling all the residual of a node does the same to scores as to mass. -/
theorem ledger_absorb (fits : m.Fits g) (inside : u ≤ g.nodeCount) :
    (m.absorb u).Fits g ∧ (m.absorb u).ledger = m.ledger.absorb u := by
  have settledInside : u < m.settled.score.size := by
    rw [fits.settled]
    exact Nat.lt_succ_of_le inside
  have residualInside : u < m.residual.score.size := by
    rw [fits.residual]
    exact Nat.lt_succ_of_le inside
  refine ⟨⟨(Array.size_modify ..).trans fits.settled,
    (Array.size_setIfInBounds ..).trans fits.residual⟩, ?_⟩
  refine congrArg₂ Ledger.mk ((arrayFinsupp_modify settledInside _).trans ?_)
    ((arrayFinsupp_set residualInside _).trans ?_)
  · rw [one_mul]
    rfl
  · rw [single_zero, add_zero]
    rfl

end DualMass

/-! ### With a record -/

namespace GradedPush

open Recording

section

variable {K : Type} [Scalar K]

/-- A result as a computation that has no state to leave behind. -/
def ofResult {α : Type} (r : Except Error α) : ExceptT Error (StateM Unit) α := fun s => (r, s)

theorem ofResult_bind {α β : Type} (r : Except Error α) (f : α → Except Error β) :
    ofResult (r >>= f) = ofResult r >>= fun a => ofResult (f a) := by
  funext s
  rw [bind_apply]
  cases r <;> rfl

theorem ofResult_foldlM {α β : Type} (f : β → α → Except Error β) (as : List α) (b : β) :
    ofResult (as.foldlM f b) = as.foldlM (fun b a => ofResult (f b a)) b := by
  induction as generalizing b with
  | nil => rfl
  | cons a rest ih =>
    rw [List.foldlM_cons, List.foldlM_cons, ofResult_bind]
    simp only [ih]

variable (o : WalkOptions K) (e : TrainingExample) (t : Transitions K) (bound : Nat)

/-- What a pass does at a node. -/
def judge (threshold : K) : Judge Unit (DualMass K) := fun u m =>
  let g := e.graph
  let degree : K := Scalar.ofNat (max (g.degree u) 1)
  if g.nodeCount < u then throw .indexOutOfBounds
  else if m.residual.at_ u / degree ≤ threshold then pure .leave
  else if t.isAbsorbing u then pure (.settle (m.absorb u))
  else pure (.spread (fun m => threshold < m.residual.at_ u / degree) (fun m => m.push o g t u)
    (((g.edgesOf u).filter fun edge =>
      !decide (g.target edge = startOf e ∨ g.target edge = u ∨ t.at_ edge == 0)).map g.target))

/-- All mass where the walk starts and none settled. -/
def seed : DualMass K :=
  { settled := .zeros e.graph.nodeCount e.graph.featureCount
    residual := .seeded e.graph.nodeCount e.graph.featureCount 1 e.seed }

/-- The walk with a record. -/
def recordWalk : Recording Unit (DualMass K) (DualMass K) := do
  note (seed e)
  Recording.tighten (judge o e t) o bound (e.seed.map (·.1)) bound 1 (seed e)

variable {o e t bound}

/-- Visits of the nodes that some edges lead to are visits along all edges that pass over the others. -/
private theorem erases_visits {threshold : K} {limit depth u : Nat}
    {visit : Nat → DualMass K → Recording Unit (DualMass K) (Nat × DualMass K)}
    (each : ∀ v m, (visit v m).Erases (ofResult (pass o e t bound threshold limit depth v m)))
    (edges : List Nat) (before : Nat × DualMass K) :
    (visitAll visit ((edges.filter fun edge => !decide (e.graph.target edge = startOf e ∨
      e.graph.target edge = u ∨ t.at_ edge == 0)).map e.graph.target) before).Erases
      (ofResult (edges.foldlM (fun (pushes, m) edge =>
        let v := e.graph.target edge
        if v = startOf e ∨ v = u ∨ t.at_ edge == 0 then .ok (pushes, m)
        else do
          let (more, m) ← pass o e t bound threshold limit depth v m
          return (pushes + more, m)) before)) := by
  unfold visitAll
  induction edges generalizing before with
  | nil => exact erases_pure before
  | cons edge rest ih =>
    rw [List.foldlM_cons, ofResult_bind, List.filter_cons]
    simp only
    by_cases skipped : e.graph.target edge = startOf e ∨ e.graph.target edge = u ∨ t.at_ edge == 0
    · rw [if_pos skipped, decide_eq_true skipped]
      exact ih before
    · rw [if_neg skipped, decide_eq_false skipped]
      refine Erases.bind ?_ ih
      rw [ofResult_bind]
      exact (each _ before.2).bind fun result => erases_pure _

/-- The recorded pass is the pass with a record. -/
theorem erases_pass (threshold : K) (limit depth u : Nat) (m : DualMass K) :
    (Recording.pass (judge o e t threshold) o.isTooDeep bound limit depth u m).Erases
      (ofResult (pass o e t bound threshold limit depth u m)) := by
  induction limit generalizing depth u m with
  | zero => exact erases_throw _
  | succ limit ih =>
    unfold Recording.pass pass judge
    simp only
    split
    · exact erases_pure _
    split
    · exact erases_throw _
    split
    · exact erases_pure _
    split
    · exact erases_note_bind _ (erases_pure _)
    have drained := erases_drain (σ := Unit)
      (fun m => threshold < m.residual.at_ u / Scalar.ofNat (max (e.graph.degree u) 1))
      (fun m => m.push o e.graph t u)
      (fun limit =>
        DualMass.drain o e.graph t threshold (Scalar.ofNat (max (e.graph.degree u) 1)) u limit)
      (fun _ => rfl)
      (fun limit m => by
        rw [DualMass.drain]
        simp only [decide_eq_true_eq]) bound m
    have onward := drained.bind fun m' => erases_visits (u := u) (ih (depth + 1))
      (e.graph.edgesOf u) (1, m')
    intro s record
    refine (onward s record).imp (fun same => same.trans ?_) fun same => same.trans ?_ <;>
    · cases DualMass.drain o e.graph t threshold _ u bound m <;> rfl

/-- The recorded walk is the walk with a record. -/
theorem erases_recordWalk : (recordWalk o e t bound).Erases (ofResult (walk o e t bound)) := by
  refine erases_note_bind _ ?_
  rw [walk]
  change Erases _ (ofResult (GradedPush.tighten o e t bound bound 1 (seed e)))
  generalize (1 : K) = threshold
  generalize (seed e : DualMass K) = m
  have all (limit : Nat) : (Recording.tighten (judge o e t) o bound (e.seed.map (·.1)) limit
      threshold m).Erases (ofResult (GradedPush.tighten o e t bound limit threshold m)) := by
    induction limit generalizing threshold m with
    | zero => exact erases_throw _
    | succ limit ih =>
      rw [Recording.tighten, GradedPush.tighten, ofResult_bind, passAll, ofResult_foldlM, visitAll,
        List.foldlM_map]
      refine (erases_foldlM (fun before s => ?_) _ _).bind fun result => ?_
      · rw [ofResult_bind]
        exact (erases_pass _ _ _ _ _).bind fun result => erases_pure _
      · simp only
        split
        · exact erases_pure _
        · exact ih _ _
  exact all bound

end

/-! ### Steps -/

variable {o : WalkOptions ℝ} {e : TrainingExample} {t : Transitions ℝ} {squash : Squash}
  {p : Parameters ℝ} {bound root : Nat}

/-- The steps of the walk are pushes of the scores along links of the graph. -/
def world (squash : Squash) (p : Parameters ℝ) (o : WalkOptions ℝ) (g : LearningGraph) :
    World Unit (DualMass ℝ) where
  grows _ _ := True
  met _ u := u ∈ g.nodes
  step _ m m' := m.Fits g → m'.Fits g ∧ m.ledger.PushesTo o (g.out squash p) m'.ledger
  grows_refl _ := trivial
  grows_trans _ _ := trivial
  met_mono _ met := met
  step_mono _ step := step

/-- What a pass does at a node is a step, as long as the threshold is at least `epsilon`. -/
theorem lawful_judge (loaded : Transitions.load squash p e.graph = .ok t)
    (wellFormed : e.graph.WellFormed) {threshold : ℝ} (above : o.epsilon ≤ threshold) :
    (judge o e t threshold).Lawful (world squash p o e.graph) := by
  refine ⟨fun m met => trivial, fun {s u m v} node given => ?_⟩
  obtain ⟨absorbing, shares⟩ := Transitions.load_spec loaded wellFormed node
  have inside : u ≤ e.graph.nodeCount := by
    have bounds := List.mem_range'_1.1 node
    omega
  have known : e.graph.out squash p u = some (e.graph.linksOf squash p u) := if_pos node
  have targets : ∀ edge ∈ e.graph.edgesOf u,
      1 ≤ e.graph.target edge ∧ e.graph.target edge ≤ e.graph.nodeCount := fun edge member =>
    wellFormed.targets edge (wellFormed.edge_lt node member)
  -- either the threshold stops the pass here, or the node absorbs, or it spreads
  unfold judge at given
  simp only [if_neg (Nat.not_lt.2 inside)] at given
  split at given
  · cases given
    trivial
  rename_i exceeds
  split at given
  · rename_i absorbs
    cases given
    intro fits
    obtain ⟨fits', ledger⟩ := DualMass.ledger_absorb fits inside
    refine ⟨fits', u, _, max (e.graph.degree u) 1, known,
      lt_of_le_of_lt above (not_le.1 exceeds), ?_⟩
    rw [if_pos (show ((e.graph.linksOf squash p u).map (·.2)).sum = 0 from
      of_decide_eq_true (absorbing ▸ absorbs))]
    exact ledger
  · rename_i spreads
    cases given
    have total := of_decide_eq_false (absorbing ▸ Bool.eq_false_of_not_eq_true spreads)
    refine ⟨decide_eq_true (not_le.1 exceeds), fun m' exceeds' fits => ?_, fun v member => ?_⟩
    · obtain ⟨fits', ledger⟩ := DualMass.ledger_push (o := o) fits inside
        (fun edge member => (targets edge member).2) shares
      refine ⟨fits', u, _, max (e.graph.degree u) 1, known,
        lt_of_le_of_lt above (of_decide_eq_true exceeds'), ?_⟩
      rw [if_neg (show ((e.graph.linksOf squash p u).map (·.2)).sum ≠ 0 from total)]
      exact ledger
    · obtain ⟨edge, filtered, rfl⟩ := List.mem_map.1 member
      obtain ⟨positive, below⟩ := targets edge (List.mem_filter.1 filtered).1
      exact List.mem_range'_1.2 ⟨positive, by omega⟩

/-- The learner's walk pushes step by step from all mass at the start. -/
theorem isRecord_walk (o : WalkOptions ℝ) (bound : Nat) (loaded : Transitions.load squash p e.graph = .ok t)
    (wellFormed : e.graph.WellFormed) (node : root ∈ e.graph.nodes) (start : e.seed = [(root, 1)]) :
    IsRecord (world squash p o e.graph) (seed e) (recordWalk o e t bound)
      (ofResult (walk o e t bound)) () := by
  refine isRecord_of_reaches erases_recordWalk ?_
  refine tighten_reaches (fun threshold => ?_) bound (fun u member => ?_) bound 1 _
  · exact lawful_judge loaded wellFormed (Walk.epsilon_le_tightened threshold)
  · rw [start] at member
    rwa [List.mem_singleton.1 member]

/-- All mass of the start is at its node. -/
theorem ledger_seed (inside : root ≤ e.graph.nodeCount) (start : e.seed = [(root, 1)]) :
    (seed e : DualMass ℝ).Fits e.graph ∧
      (seed e).ledger = { settled := 0, residual := single root 1 } := by
  obtain ⟨size, seeded⟩ := DualScores.seeded_spec inside e.graph.featureCount 1
  rw [seed, start]
  exact ⟨⟨Array.size_replicate, size⟩, congrArg₂ Ledger.mk (DualScores.arrayFinsupp_zeros _ _) seeded⟩

end GradedPush

/-! ### Every push -/

namespace Recording

/-- A ledger that starts with all mass at one node is balanced whatever pushes make of it. -/
theorem balanced_of_isRecord {Γ M : Type} [Walkable Γ] [KnowsLinks Γ] [LawfulWalkable Γ]
    {ledger : M → Ledger} {o : WalkOptions ℝ} {w : Weighting ℝ} {seed : M} {root : Nat}
    (start : ledger seed = { settled := 0, residual := single root 1 })
    {recorded : Recording (Session Γ) M M} {walk : Walk Γ M} {s : Session Γ}
    (isRecord : IsRecord (Walk.world ledger o w) seed recorded walk s) :
    ∀ m ∈ recorded.record s, (ledger m).Balanced o (outOf w (walk s).2.graph) root := by
  refine isRecord.always ?_ fun step balanced => step.balanced balanced
  rw [start]
  exact Ledger.balanced_single o _ root

end Recording

/-- After every push of every walk the books are in order: what settled mass has gained and residual
mass is promised is what the start was promised, whatever the weights, the depth and the thresholds, and
however the walk ends or is cut off. This holds of the walk over maps, the walk over arrays, the walk by
priority and the walk of the learner. -/
theorem pushes_balanced (o : WalkOptions ℝ) (w : Weighting ℝ) (bound : Nat) :
    (∀ s : Session ProofGraph,
      Recording.IsRecord (Walk.world SparseMass.ledger o w) (.seed s.graph.startId)
          (Walk.recordSparse w o bound) (Walk.pushSparse w o bound) s ∧
        ∀ m ∈ (Walk.recordSparse w o bound).record s,
          m.ledger.Accounts o (outOf w (Walk.pushSparse w o bound s).2.graph) s.graph.startId ∧
            m.total = 1) ∧
    (∀ s : Session ProofGraph,
      Recording.IsRecord (Walk.world DenseMass.ledger o w) (.seed s.graph.startId)
          (Walk.recordDense w o bound) (Walk.pushDense w o bound) s ∧
        ∀ m ∈ (Walk.recordDense w o bound).record s,
          m.ledger.Accounts o (outOf w (Walk.pushDense w o bound s).2.graph) s.graph.startId ∧
            m.total = 1) ∧
    (∀ s : Session ProofGraph,
      Recording.IsRecord (Walk.world DenseMass.ledger o w) (.seed s.graph.startId)
          (Walk.recordByPriority w o bound) (Walk.pushByPriority w o bound) s ∧
        ∀ m ∈ (Walk.recordByPriority w o bound).record s,
          m.ledger.Accounts o (outOf w (Walk.pushByPriority w o bound s).2.graph) s.graph.startId ∧
            m.total = 1) ∧
    ∀ (squash : Squash) (p : Parameters ℝ) (e : TrainingExample) t root,
      e.graph.WellFormed → root ∈ e.graph.nodes → e.seed = [(root, 1)] →
      Transitions.load squash p e.graph = .ok t →
      Recording.IsRecord (GradedPush.world squash p o e.graph) (GradedPush.seed e)
          (GradedPush.recordWalk o e t bound) (GradedPush.ofResult (GradedPush.walk o e t bound)) () ∧
        ∀ m ∈ (GradedPush.recordWalk o e t bound).record (),
          m.ledger.Accounts o (e.graph.out squash p) root ∧ m.settled.mass + m.residual.mass = 1 := by
  refine ⟨fun s => ?_, fun s => ?_, fun s => ?_, ?_⟩
  · have isRecord := Walk.isRecord_sparse w o bound s
    exact ⟨isRecord, fun m member => SparseMass.accounts_of_balanced
      (Recording.balanced_of_isRecord (SparseMass.ledger_seed _) isRecord m member)⟩
  · have isRecord := Walk.isRecord_dense w o bound s
    exact ⟨isRecord, fun m member => DenseMass.accounts_of_balanced
      (Recording.balanced_of_isRecord (DenseMass.ledger_seed _) isRecord m member)⟩
  · have isRecord := Walk.isRecord_byPriority w o bound s
    exact ⟨isRecord, fun m member => DenseMass.accounts_of_balanced
      (Recording.balanced_of_isRecord (DenseMass.ledger_seed _) isRecord m member)⟩
  · intro squash p e t root wellFormed node start loaded
    have isRecord := GradedPush.isRecord_walk o bound loaded wellFormed node start
    have inside : root ≤ e.graph.nodeCount := by
      have bounds := List.mem_range'_1.1 node
      omega
    obtain ⟨fits, ledger⟩ := GradedPush.ledger_seed inside start
    refine ⟨isRecord, fun m member => ?_⟩
    have kept : ∀ m ∈ (GradedPush.recordWalk o e t bound).record (),
        m.Fits e.graph ∧ m.ledger.Balanced o (e.graph.out squash p) root := by
      refine isRecord.always ⟨fits, ?_⟩ fun step kept => ?_
      · rw [ledger]
        exact Ledger.balanced_single o _ root
      · obtain ⟨fits', pushed⟩ := step kept.1
        exact ⟨fits', pushed.balanced kept.2⟩
    refine ⟨(kept m member).2.accounts, Eq.trans ?_ (kept m member).2.mass⟩
    exact congrArg₂ (· + ·) (dot_arrayFinsupp_one _).symm (dot_arrayFinsupp_one _).symm

/-- Two nodes that lead to each other. -/
def pairExample : TrainingExample :=
  { query := "p"
    graph := .ofEdges 2 [(1, { target := 2, labels := [(0, 1)] }), (2, { target := 1, labels := [(0, 1)] })]
      #["f"] 2
    seed := [(1, 1)], pos := [2], neg := [] }

/-- Options that restart with one tenth and push down to one hundredth. -/
noncomputable def tenths : WalkOptions ℝ :=
  { alpha := 1 / 10, epsilon := 1 / 100, maxDepth := 20, stay := 0, maxTreeDepth := none }

/-- All links weigh the same. -/
noncomputable def equalWeights : Weighting ℝ := { weight := fun _ => 1, known := fun _ => 0 }

theorem wellFormed_pairExample : pairExample.graph.WellFormed := by
  refine LearningGraph.wellFormed_ofEdges (fun e member => ?_) _ _
  rcases List.mem_cons.1 member with rfl | member
  · decide
  · rw [List.mem_singleton.1 member]
    decide

/-- Mass that goes to and fro is not lost. -/
theorem pushes_balanced_pair :
    ∃ t, Transitions.load .relu .empty pairExample.graph = .ok t ∧
      ∀ m ∈ (GradedPush.recordWalk tenths pairExample t 100).record (),
        m.ledger.Accounts tenths (pairExample.graph.out .relu .empty) 1 ∧
          m.settled.mass + m.residual.mass = 1 := by
  obtain ⟨t, loaded⟩ := Transitions.exists_load (pairExample.graph.weightOf_relu_nonneg .empty)
  have walks := (pushes_balanced tenths equalWeights 100).2.2.2
  exact ⟨t, loaded, (walks .relu .empty pairExample t 1 wellFormed_pairExample (by decide) rfl loaded).2⟩

end ProofWalk
