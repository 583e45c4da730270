import ProofWalk.Proofs.Prover.Queue

/-!
# Records of the provers' walks

Whatever a walk by local push does to its mass, it does by pushes: in passes from the start with ever
lower thresholds, or in the order of a queue. So what every push preserves holds of every mass on the
record of a walk.

## Main definitions

* `SparseMass.seed`, `DenseMass.seed` — all mass at one node
* `Walk.recordSparse`, `Walk.recordDense`, `Walk.recordByPriority` — the walks with a record

## Main results

* `Walk.isRecord_sparse`, `Walk.isRecord_dense`, `Walk.isRecord_byPriority` — what is on the records
* `SparseMass.accounts_of_balanced`, `DenseMass.accounts_of_balanced` — what balance says of all mass
-/

namespace ProofWalk

/-! ### Seeds -/

section

variable {K : Type} [Scalar K]

/-- All mass at one node and none settled. -/
def SparseMass.seed (root : Nat) : SparseMass K :=
  { settled := ∅, residual := (∅ : Scores K).insert root 1 }

/-- All mass at one node and none settled. -/
def DenseMass.seed (root : Nat) : DenseMass K :=
  { settled := #[], residual := putAt #[] root 1 }

end

namespace SparseMass

theorem ledger_seed (root : Nat) :
    (seed root).ledger = { settled := 0, residual := Finsupp.single root 1 } := by
  rw [seed, ledger, Scores.toFinsupp_insert, Scores.toFinsupp_empty, Finsupp.erase_zero, zero_add]

/-- When the ledger is balanced, so are the books. -/
theorem accounts_of_balanced {o : WalkOptions ℝ} {out : Nat → Option (List (Nat × ℝ))} {root : Nat}
    {m : SparseMass ℝ} (balanced : m.ledger.Balanced o out root) :
    m.ledger.Accounts o out root ∧ m.total = 1 :=
  ⟨balanced.accounts, m.total_eq.trans balanced.mass⟩

end SparseMass

namespace DenseMass

theorem ledger_seed (root : Nat) :
    (seed root).ledger = { settled := 0, residual := Finsupp.single root 1 } := by
  rw [seed, ledger, arrayFinsupp_putAt, arrayFinsupp_empty, Finsupp.erase_zero, zero_add]

/-- When the ledger is balanced, so are the books. -/
theorem accounts_of_balanced {o : WalkOptions ℝ} {out : Nat → Option (List (Nat × ℝ))} {root : Nat}
    {m : DenseMass ℝ} (balanced : m.ledger.Balanced o out root) :
    m.ledger.Accounts o out root ∧ m.total = 1 :=
  ⟨balanced.accounts, m.total_eq.trans balanced.mass⟩

end DenseMass

/-! ### Whole walks -/

namespace Walk

open Recording

section

variable {Γ K : Type} [Walkable Γ] [Scalar K] (w : Weighting K) (o : WalkOptions K) (bound : Nat)

/-- The local push over maps with a record. -/
def recordSparse : Recording (Session Γ) (SparseMass K) (SparseMass K) := do
  let root ← look start
  note (.seed root)
  tighten ((PushOps.sparse o).judge w) o bound [root] bound 1 (.seed root)

/-- The local push over arrays with a record. -/
def recordDense : Recording (Session Γ) (DenseMass K) (DenseMass K) := do
  let root ← look start
  note (.seed root)
  tighten ((PushOps.dense o).judge w) o bound [root] bound 1 (.seed root)

/-- The push by priority with a record. -/
def recordByPriority : Recording (Session Γ) (DenseMass K) (DenseMass K) := do
  let root ← look start
  note (.seed root)
  let degree ← look (Walk.degree root)
  let q := (∅ : PushQueue K).push { score := 1 / degree, node := root }
  Recording.serve w o bound bound (Scalar.ceil (1 / o.epsilon)) (.seed root) q

variable {w o bound}

theorem erases_recordSparse :
    (recordSparse w o bound : Recording (Session Γ) _ _).Erases (pushSparse w o bound) := by
  refine (erases_look _).bind fun root => erases_note_bind _ ?_
  rw [tightenSparse_eq]
  exact PushOps.erases_tighten _ _ _ _

theorem erases_recordDense :
    (recordDense w o bound : Recording (Session Γ) _ _).Erases (pushDense w o bound) := by
  refine (erases_look _).bind fun root => erases_note_bind _ ?_
  rw [tightenDense_eq]
  exact PushOps.erases_tighten _ _ _ _

theorem erases_recordByPriority :
    (recordByPriority w o bound : Recording (Session Γ) _ _).Erases (pushByPriority w o bound) :=
  (erases_look _).bind fun _ => erases_note_bind _ <|
    (erases_look _).bind fun _ => erases_serve _ _ _ _

end

variable {Γ : Type} [Walkable Γ] [KnowsLinks Γ] [LawfulWalkable Γ] (w : Weighting ℝ)
  (o : WalkOptions ℝ) (bound : Nat) (s : Session Γ)

/-- The thresholds of passes do not go below `epsilon`. -/
theorem epsilon_le_tightened {o : WalkOptions ℝ} (threshold : ℝ) :
    o.epsilon ≤ tightened o threshold := le_max_right _ _

/-- The walk over maps pushes step by step from all mass at the start. -/
theorem isRecord_sparse : IsRecord (world SparseMass.ledger o w) (.seed (Walkable.start s.graph))
    (recordSparse w o bound) (pushSparse w o bound) s := by
  refine isRecord_of_reaches erases_recordSparse ?_
  refine tighten_reaches (fun threshold => ?_) bound (fun u member => ?_) bound 1 _
  · exact PushOps.lawful_judge (PushOps.lawful_sparse o) (epsilon_le_tightened threshold)
  · rw [List.mem_singleton.1 member]
    exact Met.start

/-- So does the walk over arrays. -/
theorem isRecord_dense : IsRecord (world DenseMass.ledger o w) (.seed (Walkable.start s.graph))
    (recordDense w o bound) (pushDense w o bound) s := by
  refine isRecord_of_reaches erases_recordDense ?_
  refine tighten_reaches (fun threshold => ?_) bound (fun u member => ?_) bound 1 _
  · exact PushOps.lawful_judge (PushOps.lawful_dense o) (epsilon_le_tightened threshold)
  · rw [List.mem_singleton.1 member]
    exact Met.start

/-- So does the walk by priority. -/
theorem isRecord_byPriority : IsRecord (world DenseMass.ledger o w) (.seed (Walkable.start s.graph))
    (recordByPriority w o bound) (pushByPriority w o bound) s := by
  refine isRecord_of_reaches erases_recordByPriority ?_
  have counted : Ends (look (degree (Walkable.start s.graph) : Walk Γ ℝ)) s
      [(DenseMass.seed (Walkable.start s.graph) : DenseMass ℝ)] _ := ends_degree Met.start
  refine counted.bind ?_ ?_
  · rintro e s' record ⟨rfl, asked, -⟩
    exact ⟨.refl asked, fun a equal => by cases equal⟩
  · rintro d s' record ⟨rfl, asked, -⟩
    refine Ends.mono (serve_reaches _ _ fun e member => ?_) fun _ _ _ => .trans (.refl asked)
    obtain rfl | member := PushQueue.mem_push member
    · exact Met.start.mono asked.grows
    · exact absurd member Std.TreeMap.not_mem_emptyc

end Walk

end ProofWalk
