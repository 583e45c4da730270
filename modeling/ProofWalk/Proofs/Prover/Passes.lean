import ProofWalk.Proofs.Prover.Gains
import ProofWalk.Proofs.Prover.Known
import ProofWalk.Proofs.Prover.Records

/-!
# Passes

A pass over maps and a pass over arrays take the same steps, so what holds of one holds of the other.
What both need is a push that does to the ledger what a push does, and a way to settle all the
residual of a node. With these, a pass asks a judge at every node, so it can be run with a record.

## Main definitions

* `PushOps` — the operations of a form of local push
* `PushOps.pass`, `PushOps.tighten` — the walk of a form
* `PushOps.judge` — what it does at a node
* `outOf` — the weighed links that a graph has shown
* `Walk.world` — the steps of a walk

## Main results

* `Walk.passSparse_eq`, `Walk.passDense_eq` — the passes of both forms
* `PushOps.erases_tighten` — the recorded walk is the walk with a record
* `PushOps.lawful_judge` — at every node a walk takes steps
-/

namespace ProofWalk

/-- The links that a graph has shown, with their weights. -/
def outOf {Γ : Type} [KnowsLinks Γ] (w : Weighting ℝ) (g : Γ) (u : Nat) : Option (List (Nat × ℝ)) :=
  (KnowsLinks.known g u).map (Walk.weighed w)

theorem outOf_of_grows {Γ : Type} [Walkable Γ] [KnowsLinks Γ] {w : Weighting ℝ} {g g' : Γ}
    (grows : Grows g g') {u : Nat} {links : List (Nat × ℝ)} (known : outOf w g u = some links) :
    outOf w g' u = some links := by
  obtain ⟨shown, isKnown, rfl⟩ := Option.map_eq_some_iff.1 known
  rw [outOf, grows.known u shown isKnown, Option.map_some]

/-- The operations of a form of local push on its mass: the residual of a node, a push, and settling
all the residual of a node. -/
structure PushOps (K M : Type) where
  residual : M → Nat → K
  push : Nat → List (Nat × K) → K → M → M
  absorb : Nat → M → M

namespace PushOps

variable {K M Γ : Type} [Scalar K] [Walkable Γ] (F : PushOps K M)

/-- Pushes a node while its residual per link exceeds the threshold. -/
def drain (threshold degree : K) (u : Nat) (links : List (Nat × K)) (total : K) :
    Nat → M → Option M
  | 0, _ => none
  | limit + 1, m =>
    if threshold < F.residual m u / degree then
      drain threshold degree u links total limit (F.push u links total m)
    else some m

theorem drain_succ (threshold degree : K) (u : Nat) (links : List (Nat × K)) (total : K) (limit : Nat)
    (m : M) :
    F.drain threshold degree u links total (limit + 1) m =
      if decide (threshold < F.residual m u / degree) then
        F.drain threshold degree u links total limit (F.push u links total m)
      else some m := by
  rw [drain]
  simp only [decide_eq_true_eq]

/-- A pass from a node at a depth. -/
def pass (w : Weighting K) (o : WalkOptions K) (bound : Nat) (threshold : K) :
    Nat → Nat → Nat → M → Walk Γ (Nat × M)
  | 0, _, _, _ => throw .walkUnfinished
  | limit + 1, depth, u, m => do
    if o.isTooDeep depth then return (0, m)
    let degree ← Walk.degree u
    if F.residual m u / degree ≤ threshold then return (0, m)
    let (links, total) ← Walk.weighLinks w u true
    if total == 0 then return (1, F.absorb u m)
    match F.drain threshold degree u links total bound m with
    | none => throw .walkUnfinished
    | some m =>
      let root ← Walk.start
      links.foldlM (fun (pushes, m) (v, weight) => do
        if v = root || weight == 0 then pure (pushes, m)
        else
          let (more, m) ← pass w o bound threshold limit (depth + 1) v m
          pure (pushes + more, m)) (1, m)

/-- A pass on from a node along one of its links. -/
def visit (w : Weighting K) (o : WalkOptions K) (bound : Nat) (threshold : K)
    (limit depth root : Nat) (pushed : Nat × M) (link : Nat × K) : Walk Γ (Nat × M) :=
  if link.1 = root || link.2 == 0 then pure (pushed.1, pushed.2)
  else do
    let (more, m) ← F.pass w o bound threshold limit (depth + 1) link.1 pushed.2
    pure (pushed.1 + more, m)

/-- Passes with ever lower thresholds until one at `epsilon` pushes nothing. -/
def tighten (w : Weighting K) (o : WalkOptions K) (bound root : Nat) : Nat → K → M → Walk Γ M
  | 0, _, _ => throw .walkUnfinished
  | limit + 1, threshold, m => do
    let threshold := tightened o threshold
    let (pushes, m) ← F.pass w o bound threshold bound 1 root m
    if threshold == o.epsilon && pushes == 0 then return m
    tighten w o bound root limit threshold m

section

variable {F} {w : Weighting K} {o : WalkOptions K} {bound limit depth u : Nat} {threshold d total : K}
  {m m' : M} {links : List (Nat × K)} {s s₁ s₂ : Session Γ}

/-- A node that is not above the threshold is asked for its degree and left. -/
theorem pass_of_below (shallow : o.isTooDeep depth = false)
    (degree : Walk.degree u s = (.ok d, s₁)) (below : F.residual m u / d ≤ threshold) :
    F.pass w o bound threshold (limit + 1) depth u m s = (.ok (0, m), s₁) := by
  rw [PushOps.pass, if_neg (by rw [shallow]; exact Bool.false_ne_true), bind_apply, degree]
  simp only
  rw [if_pos below]
  rfl

/-- A node above the threshold is drained, and the pass goes on along its links. -/
theorem pass_of_above (shallow : o.isTooDeep depth = false)
    (degree : Walk.degree u s = (.ok d, s₁)) (above : ¬F.residual m u / d ≤ threshold)
    (weighs : Walk.weighLinks w u true s₁ = (.ok (links, total), s₂)) (weight : (total == 0) = false)
    (drained : F.drain threshold d u links total bound m = some m') :
    F.pass w o bound threshold (limit + 1) depth u m s =
      links.foldlM (F.visit w o bound threshold limit depth (Walkable.start s₂.graph)) (1, m') s₂ := by
  rw [PushOps.pass, if_neg (by rw [shallow]; exact Bool.false_ne_true), bind_apply, degree]
  simp only
  rw [if_neg above, bind_apply, weighs]
  simp only
  rw [if_neg (by rw [weight]; exact Bool.false_ne_true)]
  simp only [drained]
  rfl

variable {root : Nat} {pushed r : Nat × M} {link : Nat × K}

/-- Links to the start are left out. -/
theorem visit_of_root (back : link.1 = root) :
    F.visit w o bound threshold limit depth root pushed link s = (.ok pushed, s) := by
  rw [visit, if_pos (by rw [decide_eq_true back]; rfl)]
  rfl

theorem visit_of_pass (onward : link.1 ≠ root) (weighs : (link.2 == 0) = false)
    (done : F.pass w o bound threshold limit (depth + 1) link.1 pushed.2 s = (.ok r, s₁)) :
    F.visit w o bound threshold limit depth root pushed link s = (.ok (pushed.1 + r.1, r.2), s₁) := by
  rw [visit, if_neg (by rw [decide_eq_false onward, weighs]; exact Bool.false_ne_true), bind_of_ok done]
  rfl

end

/-- The form over maps. -/
def sparse (o : WalkOptions K) : PushOps K (SparseMass K) where
  residual m := m.residual.at
  push u links total m := m.push o u links total (m.residual.at u)
  absorb := SparseMass.absorb

/-- The form over arrays. -/
def dense (o : WalkOptions K) : PushOps K (DenseMass K) where
  residual m := entryAt m.residual
  push u links total m := m.push o u links total (entryAt m.residual u)
  absorb := DenseMass.absorb

/-- The form over arrays that pushes along links without weight as well. -/
def queued (o : WalkOptions K) : PushOps K (DenseMass K) where
  residual m := entryAt m.residual
  push u links total m := m.pushAll o u links total (entryAt m.residual u)
  absorb := DenseMass.absorb

end PushOps

/-! ### Both forms -/

section Forms

variable {K Γ : Type} [Scalar K] [Walkable Γ] (w : Weighting K) (o : WalkOptions K) (bound : Nat)
  (threshold : K)

theorem SparseMass.drain_eq (degree : K) (u : Nat) (links : List (Nat × K)) (total : K)
    (limit : Nat) (m : SparseMass K) :
    m.drain o threshold degree u links total limit =
      (PushOps.sparse o).drain threshold degree u links total limit m := by
  induction limit generalizing m with
  | zero => rfl
  | succ limit ih =>
    rw [SparseMass.drain, PushOps.drain, ih]
    rfl

theorem DenseMass.drain_eq (degree : K) (u : Nat) (links : List (Nat × K)) (total : K)
    (limit : Nat) (m : DenseMass K) :
    m.drain o threshold degree u links total limit =
      (PushOps.dense o).drain threshold degree u links total limit m := by
  induction limit generalizing m with
  | zero => rfl
  | succ limit ih =>
    rw [DenseMass.drain, PushOps.drain, ih]
    rfl

theorem DenseMass.drainAll_eq (degree : K) (u : Nat) (links : List (Nat × K)) (total : K)
    (limit : Nat) (m : DenseMass K) :
    m.drainAll o degree u links total limit =
      (PushOps.queued o).drain o.epsilon degree u links total limit m := by
  induction limit generalizing m with
  | zero => rfl
  | succ limit ih =>
    rw [DenseMass.drainAll, PushOps.drain, ih]
    rfl

namespace Walk

theorem passSparse_eq (limit depth u : Nat) (m : SparseMass K) :
    (passSparse w o bound threshold limit depth u m : Walk Γ _) =
      (PushOps.sparse o).pass w o bound threshold limit depth u m := by
  induction limit generalizing depth u m with
  | zero => rfl
  | succ limit ih =>
    unfold passSparse PushOps.pass
    simp only [ih, SparseMass.drain_eq]
    refine if_congr Iff.rfl rfl ?_
    refine congrArg (_ >>= ·) (funext fun degree => ?_)
    refine if_congr Iff.rfl rfl ?_
    refine congrArg (_ >>= ·) (funext fun shown => ?_)
    refine if_congr Iff.rfl rfl ?_
    cases (PushOps.sparse o).drain threshold degree u shown.1 shown.2 bound m <;> rfl

theorem passDense_eq (limit depth u : Nat) (m : DenseMass K) :
    (passDense w o bound threshold limit depth u m : Walk Γ _) =
      (PushOps.dense o).pass w o bound threshold limit depth u m := by
  induction limit generalizing depth u m with
  | zero => rfl
  | succ limit ih =>
    unfold passDense PushOps.pass
    simp only [ih, DenseMass.drain_eq]
    refine if_congr Iff.rfl rfl ?_
    refine congrArg (_ >>= ·) (funext fun degree => ?_)
    refine if_congr Iff.rfl rfl ?_
    refine congrArg (_ >>= ·) (funext fun shown => ?_)
    refine if_congr Iff.rfl rfl ?_
    cases (PushOps.dense o).drain threshold degree u shown.1 shown.2 bound m <;> rfl

theorem tightenSparse_eq (root limit : Nat) (m : SparseMass K) :
    (tightenSparse w o bound root limit threshold m : Walk Γ _) =
      (PushOps.sparse o).tighten w o bound root limit threshold m := by
  induction limit generalizing threshold m with
  | zero => rfl
  | succ limit ih =>
    rw [tightenSparse, PushOps.tighten, passSparse_eq]
    simp only [ih]

theorem tightenDense_eq (root limit : Nat) (m : DenseMass K) :
    (tightenDense w o bound root limit threshold m : Walk Γ _) =
      (PushOps.dense o).tighten w o bound root limit threshold m := by
  induction limit generalizing threshold m with
  | zero => rfl
  | succ limit ih =>
    rw [tightenDense, PushOps.tighten, passDense_eq]
    simp only [ih]

end Walk

end Forms

/-! ### With a record -/

namespace PushOps

section

variable {K M Γ : Type} [Scalar K] [Walkable Γ] (F : PushOps K M) (w : Weighting K)
  (o : WalkOptions K) (bound : Nat)

/-- What a pass does at a node. -/
def judge (threshold : K) : Judge (Session Γ) M := fun u m => do
  let degree ← Walk.degree u
  if F.residual m u / degree ≤ threshold then return .leave
  let (links, total) ← Walk.weighLinks w u true
  if total == 0 then return .settle (F.absorb u m)
  let root ← Walk.start
  return .spread (fun m => threshold < F.residual m u / degree) (F.push u links total)
    ((links.filter fun l => !(l.1 = root || l.2 == 0)).map (·.1))

variable {F w o bound}

/-- Visits of the nodes that some links lead to are visits along all links that pass over the others. -/
private theorem erases_visits {threshold : K} {limit depth : Nat} (root : Nat)
    {visit : Nat → M → Recording (Session Γ) M (Nat × M)}
    (each : ∀ v m, (visit v m).Erases (F.pass w o bound threshold limit (depth + 1) v m))
    (links : List (Nat × K)) (before : Nat × M) :
    (Recording.visitAll visit ((links.filter fun l => !(l.1 = root || l.2 == 0)).map (·.1))
      before).Erases (links.foldlM (F.visit w o bound threshold limit depth root) before) := by
  unfold Recording.visitAll
  induction links generalizing before with
  | nil => exact Recording.erases_pure before
  | cons l rest ih =>
    rw [List.foldlM_cons, PushOps.visit, List.filter_cons]
    by_cases skipped : (decide (l.1 = root) || l.2 == 0) = true
    · rw [if_pos skipped, skipped, pure_bind]
      exact ih before
    · rw [if_neg skipped, if_pos (by rw [Bool.not_eq_true] at skipped; rw [skipped]; rfl),
        List.map_cons, List.foldlM_cons]
      refine Recording.Erases.bind ?_ ih
      exact (each l.1 before.2).bind fun result => Recording.erases_pure _

/-- The recorded pass is the pass with a record. -/
theorem erases_pass (threshold : K) (limit depth u : Nat) (m : M) :
    (Recording.pass (F.judge w threshold) o.isTooDeep bound limit depth u m :
      Recording (Session Γ) M _).Erases (F.pass w o bound threshold limit depth u m) := by
  induction limit generalizing depth u m with
  | zero => exact Recording.erases_throw _
  | succ limit ih =>
    unfold Recording.pass PushOps.pass
    split
    · exact Recording.erases_pure _
    rw [judge, Recording.look_bind, bind_assoc]
    refine (Recording.erases_look _).bind fun degree => ?_
    split
    · exact Recording.erases_pure _
    rw [Recording.look_bind, bind_assoc]
    refine (Recording.erases_look _).bind fun shown => ?_
    obtain ⟨links, total⟩ := shown
    simp only
    split
    · exact Recording.erases_note_bind _ (Recording.erases_pure _)
    rw [Recording.look_bind, bind_assoc]
    -- the start is read before the node is drained, and not after, which makes no difference
    intro s record
    have drained := Recording.erases_drain (σ := Session Γ)
      (fun m => threshold < F.residual m u / degree) (F.push u links total)
      (fun limit => F.drain threshold degree u links total limit) (fun _ => rfl)
      (F.drain_succ _ _ _ _ _) bound m
    have onward := drained.bind fun m' => erases_visits (Walkable.start s.graph) (ih (depth + 1)) links
      (1, m')
    refine (onward s record).imp (fun same => same.trans ?_) fun same => same.trans ?_ <;>
    · cases F.drain threshold degree u links total bound m <;> rfl

/-- The recorded walk is the walk with a record. -/
theorem erases_tighten (root limit : Nat) (threshold : K) (m : M) :
    (Recording.tighten (F.judge w) o bound [root] limit threshold m :
      Recording (Session Γ) M _).Erases (F.tighten w o bound root limit threshold m) := by
  induction limit generalizing threshold m with
  | zero => exact Recording.erases_throw _
  | succ limit ih =>
    rw [Recording.tighten, PushOps.tighten, Recording.visitAll, List.foldlM_cons, bind_assoc]
    simp only [bind_assoc, List.foldlM_nil, pure_bind, Nat.zero_add]
    refine (erases_pass _ _ _ _ _).bind fun result => ?_
    split
    · exact Recording.erases_pure _
    · exact ih _ _

end

/-! ### Steps -/

/-- The operations do to the ledger of mass what they are called after. -/
structure Lawful {M : Type} (F : PushOps ℝ M) (o : WalkOptions ℝ) (ledger : M → Ledger) : Prop where
  residual : ∀ m u, F.residual m u = (ledger m).residual u
  push : ∀ u links total m, ledger (F.push u links total m) = (ledger m).push o u links total
  absorb : ∀ u m, ledger (F.absorb u m) = (ledger m).absorb u

theorem lawful_sparse (o : WalkOptions ℝ) : (sparse o).Lawful o SparseMass.ledger :=
  ⟨fun _ _ => rfl, SparseMass.ledger_push o, SparseMass.ledger_absorb⟩

theorem lawful_dense (o : WalkOptions ℝ) : (dense o).Lawful o DenseMass.ledger :=
  ⟨fun _ _ => rfl, DenseMass.ledger_push o, DenseMass.ledger_absorb⟩

theorem lawful_queued (o : WalkOptions ℝ) : (queued o).Lawful o DenseMass.ledger :=
  ⟨fun _ _ => rfl, DenseMass.ledger_pushAll o, DenseMass.ledger_absorb⟩

end PushOps

section

variable {M Γ : Type} [Walkable Γ] [KnowsLinks Γ] [LawfulWalkable Γ]

theorem Ledger.PushesTo.mono {o : WalkOptions ℝ} {out out' : Nat → Option (List (Nat × ℝ))}
    {l l' : Ledger} (more : ∀ u links, out u = some links → out' u = some links)
    (pushes : l.PushesTo o out l') : l.PushesTo o out' l' := by
  obtain ⟨u, links, degree, known, above, becomes⟩ := pushes
  exact ⟨u, links, degree, more u links known, above, becomes⟩

/-- The steps of a walk are pushes along links that the graph has shown. -/
def Walk.world (ledger : M → Ledger) (o : WalkOptions ℝ) (w : Weighting ℝ) : World (Session Γ) M where
  grows s s' := Asked s.graph s'.graph
  met s := Met s.graph
  step s m m' := (ledger m).PushesTo o (outOf w s.graph) (ledger m')
  grows_refl _ := .none
  grows_trans := .trans
  met_mono asked := .mono asked.grows
  step_mono asked := .mono fun _ _ => outOf_of_grows asked.grows

namespace PushOps

variable {F : PushOps ℝ M} {o : WalkOptions ℝ} {w : Weighting ℝ} {s : Session Γ} {u : Nat} {m : M}

/-- What a pass asks for at a node, and what it is told: the node is not above the threshold, or else
its links are known from then on, and it settles all the residual of a node whose links weigh
nothing. -/
theorem judge_cases {threshold : ℝ} (met : Met s.graph u) :
    Asked s.graph (F.judge w threshold u m s).2.graph ∧
    ∀ v, (F.judge w threshold u m s).1 = .ok v →
      ∃ links, outOf w (F.judge w threshold u m s).2.graph u = some links ∧
      ((v = .leave ∧ F.residual m u / links.length ≤ threshold) ∨
        threshold < F.residual m u / links.length ∧
        ((v = .settle (F.absorb u m) ∧ (links.map (·.2)).sum = 0) ∨
          (links.map (·.2)).sum ≠ 0 ∧
          v = .spread (fun m => threshold < F.residual m u / links.length)
            (F.push u links (links.map (·.2)).sum)
            ((links.filter fun l => !(l.1 = Walkable.start s.graph || l.2 == 0)).map (·.1)))) := by
  unfold judge
  rw [bind_apply, Walk.degree_apply]
  have counted : Asked s.graph (Walkable.degree s.graph u true).2 := Asked.none.degree met
  rcases found : (Walkable.degree s.graph u true).1 with e | n
  · exact ⟨counted, fun v equal => by cases equal⟩
  obtain ⟨shown, known, rfl⟩ := LawfulWalkable.known_degree _ _ _ found
  have count : ((Walk.weighed w shown).length : ℝ) = shown.length := by
    rw [Walk.weighed, List.length_map]
  simp only [Except.map]
  split
  · rename_i below
    refine ⟨counted, fun v equal => ⟨Walk.weighed w shown, ?_, .inl ?_⟩⟩
    · exact congrArg (Option.map (Walk.weighed w)) known
    · cases equal
      rw [count]
      exact ⟨rfl, below⟩
  rename_i above
  generalize isGraph : (Walkable.degree s.graph u true).2 = g₁ at counted known
  obtain ⟨tally, weighs⟩ := Walk.weighLinks_apply w u true ({ s with graph := g₁ } : Session Γ)
  have asked : Asked s.graph (Walkable.links g₁ u true).2 := counted.links (met.mono counted.grows)
  rw [bind_apply, weighs]
  rcases found' : (Walkable.links g₁ u true).1 with e | shown'
  · exact ⟨asked, fun v equal => by cases equal⟩
  -- the links are those that the degree counted
  have known' := LawfulWalkable.known_links _ _ _ found'
  obtain rfl : shown = shown' := Option.some.inj
    (((LawfulWalkable.grows_links g₁ u true).known u shown known).symm.trans known')
  have start : Walkable.start (Walkable.links g₁ u true).2 = Walkable.start s.graph :=
    asked.grows.start
  simp only [Except.map, Scalar.sum_real]
  split
  · rename_i weightless
    refine ⟨asked, fun v equal => ⟨Walk.weighed w shown, ?_, .inr ⟨?_, .inl ?_⟩⟩⟩
    · exact congrArg (Option.map (Walk.weighed w)) known'
    · rw [count]
      exact not_le.1 above
    · cases equal
      exact ⟨rfl, eq_of_beq weightless⟩
  · rename_i total
    refine ⟨asked, fun v equal => ⟨Walk.weighed w shown, ?_, .inr ⟨?_, .inr ⟨?_, ?_⟩⟩⟩⟩
    · exact congrArg (Option.map (Walk.weighed w)) known'
    · rw [count]
      exact not_le.1 above
    · exact fun zero => total (beq_iff_eq.2 zero)
    · cases equal
      rw [count, ← start]
      rfl

/-- What a pass does at a node is a step, as long as the threshold is at least `epsilon`. -/
theorem lawful_judge {ledger : M → Ledger} (lawful : F.Lawful o ledger) {threshold : ℝ}
    (above : o.epsilon ≤ threshold) :
    (F.judge (Γ := Γ) w threshold).Lawful (Walk.world ledger o w) := by
  refine ⟨fun m met => (judge_cases met).1, fun {s u m v} met given => ?_⟩
  obtain ⟨links, known, ⟨rfl, -⟩ | ⟨exceeds, ⟨rfl, weightless⟩ | ⟨total, rfl⟩⟩⟩ :=
    (judge_cases met).2 v given
  · trivial
  · refine ⟨u, links, links.length, known, ?_, ?_⟩
    · rw [← lawful.residual]
      exact lt_of_le_of_lt above exceeds
    · rw [if_pos weightless, lawful.absorb]
  · refine ⟨decide_eq_true exceeds, fun m' exceeds' => ?_, fun v member => ?_⟩
    · refine ⟨u, links, links.length, known, ?_, ?_⟩
      · rw [← lawful.residual]
        exact lt_of_le_of_lt above (of_decide_eq_true exceeds')
      · rw [if_neg total, lawful.push]
    · -- a node that a link leads to has been shown
      obtain ⟨l, filtered, rfl⟩ := List.mem_map.1 member
      obtain ⟨shown, isKnown, rfl⟩ := Option.map_eq_some_iff.1 known
      obtain ⟨link, isLink, rfl⟩ := List.mem_map.1 (List.mem_filter.1 filtered).1
      exact .child isKnown isLink

end PushOps

end

end ProofWalk
