import ProofWalk.Proofs.Grounding.Forms
import ProofWalk.Proofs.ProofGraph.Orders
import ProofWalk.Proofs.Prover.DenseRounds
import ProofWalk.Proofs.Squash

/-!
# The forms of power iteration

Power iteration over a map asks every node with a score for its links, the form over an array only those with
a positive score. So the two graphs of one query may number their states differently, and one of them may hold
states that the other does not. Rounds look at links only, and twins have links to twins: without negative
weights both forms give every state the same score.

## Main definitions

* `PowerRound.Renames` — two systems of links whose nodes carry labels that their links agree on
* `ProofGraph.keyAt` — the label of a node: the key of its state

## Main results

* `PowerRound.Renames.mapDomain_after` — rounds give every label the same amount
* `ProofGraph.Grown.eq_of_twins` — power iteration gives twins the same scores
* `Prover.power_forms` — on graphs of one query the two forms give every state the same score
-/

namespace ProofWalk

open Finsupp

/-! ### Rounds under labels -/

namespace PowerRound

variable {L : Type} {alpha : ℝ}

/-- Links with equal weights, one by one, to nodes that carry the same label. -/
def LinksAgree (κ κ' : ℕ → L) : List (Nat × ℝ) → List (Nat × ℝ) → Prop :=
  List.Forall₂ fun l l' => κ l.1 = κ' l'.1 ∧ l.2 = l'.2

/-- Two systems of links whose nodes carry labels: no two nodes of a system carry the same label, and links of
nodes that carry the same label agree. -/
structure Renames (κ κ' : ℕ → L) (S S' : Set Nat) (root root' : Nat)
    (out out' : Nat → List (Nat × ℝ)) : Prop where
  injOn : S.InjOn κ
  injOn' : S'.InjOn κ'
  root : κ root = κ' root'
  links : ∀ u ∈ S, ∀ u' ∈ S', κ u = κ' u' → LinksAgree κ κ' (out u) (out' u')

variable {κ κ' : ℕ → L} {S S' : Set Nat} {root root' : Nat} {out out' : Nat → List (Nat × ℝ)}
  {f f' : ℕ →₀ ℝ}

theorem mapDomain_share {links links' : List (Nat × ℝ)} (agree : LinksAgree κ κ' links links') {u u' : Nat}
    (same : κ u = κ' u') (x : ℝ) :
    mapDomain κ (share alpha links u x) = mapDomain κ' (share alpha links' u' x) := by
  have weights : links.map (·.2) = links'.map (·.2) := by
    rw [← List.forall₂_eq_eq_eq, List.forall₂_map_left_iff, List.forall₂_map_right_iff]
    exact agree.imp fun l l' both => both.2
  have sum (κ : ℕ → L) (parts : List (ℕ →₀ ℝ)) :
      mapDomain κ parts.sum = (parts.map (mapDomain κ)).sum :=
    map_list_sum (mapDomain.addMonoidHom κ) parts
  unfold share
  simp only [weights]
  split
  · rw [mapDomain_single, mapDomain_single, same]
  · rw [sum, sum, List.map_map, List.map_map]
    congr 1
    rw [← List.forall₂_eq_eq_eq, List.forall₂_map_left_iff, List.forall₂_map_right_iff]
    refine agree.imp fun l l' ⟨label, weight⟩ => ?_
    rw [Function.comp_apply, Function.comp_apply, mapDomain_single, mapDomain_single, label, weight]

/-- If amounts are the same by labels, every node with an amount has its like. -/
theorem exists_like (injOn : S.InjOn κ) (injOn' : S'.InjOn κ') (within : ↑f.support ⊆ S)
    (within' : ↑f'.support ⊆ S') (same : mapDomain κ f = mapDomain κ' f') {u : Nat} (some : u ∈ f.support) :
    ∃ u' ∈ f'.support, κ u = κ' u' ∧ f u = f' u' := by
  classical
  have amount : mapDomain κ f (κ u) = f u := mapDomain_apply' S f within injOn (within some)
  rw [same] at amount
  have labelled : κ u ∈ (mapDomain κ' f').support := by
    rw [mem_support_iff, amount]
    exact mem_support_iff.1 some
  obtain ⟨u', some', label⟩ := Finset.mem_image.1 (mapDomain_support labelled)
  rw [← label, mapDomain_apply' S' f' within' injOn' (within' some')] at amount
  exact ⟨u', some', label.symm, amount.symm⟩

namespace Renames

variable (renames : Renames κ κ' S S' root root' out out')
include renames

/-- A round keeps amounts the same by labels. -/
theorem mapDomain_next (within : ↑f.support ⊆ S) (within' : ↑f'.support ⊆ S')
    (same : mapDomain κ f = mapDomain κ' f') :
    mapDomain κ (next alpha root out f) = mapDomain κ' (next alpha root' out' f') := by
  have like := fun u => exists_like renames.injOn renames.injOn' within within' same (u := u)
  choose! σ some label amount using like
  rw [next, next, mapDomain_add, mapDomain_add, mapDomain_single, mapDomain_single, renames.root]
  congr 1
  rw [Finsupp.sum, Finsupp.sum, mapDomain_finsetSum, mapDomain_finsetSum]
  refine Finset.sum_nbij σ some (fun u member v member' equal => ?_) (fun u' member' => ?_)
    fun u member => ?_
  · refine renames.injOn (within member) (within member') ?_
    rw [label u member, equal, ← label v member']
  · obtain ⟨u, member, back, -⟩ :=
      exists_like renames.injOn' renames.injOn within' within same.symm member'
    refine ⟨u, member, renames.injOn' (within' (some u member)) (within' member') ?_⟩
    rw [← label u member, back]
  · rw [amount u member]
    exact mapDomain_share (renames.links u (within member) _ (within' (some u member)) (label u member))
      (label u member) _

/-- Rounds give every label the same amount, if all that has an amount before the last one is among the nodes
of the systems. -/
theorem mapDomain_after (n : Nat) (within : ∀ m < n, ↑(after alpha root out m).support ⊆ S)
    (within' : ∀ m < n, ↑(after alpha root' out' m).support ⊆ S') :
    mapDomain κ (after alpha root out n) = mapDomain κ' (after alpha root' out' n) := by
  induction n with
  | zero => rw [after_zero, after_zero, mapDomain_single, mapDomain_single, renames.root]
  | succ n ih =>
    have before := ih (fun m less => within m (less.trans n.lt_succ_self))
      fun m less => within' m (less.trans n.lt_succ_self)
    rw [after_succ, after_succ]
    exact renames.mapDomain_next (within n n.lt_succ_self) (within' n n.lt_succ_self) before

end Renames

end PowerRound

/-! ### Proof graphs -/

namespace ProofGraph

variable {m : Machine} {start s : State} {keys keys' : List Key} {g g' : ProofGraph} {u v : Nat}
  {w : Weighting ℝ} {o : WalkOptions ℝ} {f f' : ℕ →₀ ℝ}

/-- The key of the state at a node. -/
def keyAt (g : ProofGraph) (u : Nat) : Option Key := (g.store.state? u).map g.code.key

/-- The nodes of a graph. -/
def nodeSet (g : ProofGraph) : Set Nat := {u | (g.store.state? u).isSome}

/-- The nodes that have given links. -/
def shownSet (g : ProofGraph) : Set Nat := {u | (g.expansions[u]?).isSome}

theorem isSome_outOf : (outOf w g u).isSome ↔ u ∈ g.shownSet := by
  change (((g.expansions[u]?).map _).map _).isSome ↔ _
  rw [Option.isSome_map, Option.isSome_map]
  rfl

theorem outlinks_of_expansion {e : Expansion} (found : g.expansions[u]? = some e) :
    Walk.outlinks w g u = Walk.weighed w (e.links true) := by
  refine Walk.outlinks_of_outOf ?_
  change ((g.expansions[u]?).map _).map _ = _
  rw [found]
  rfl

/-- Nodes with the same label are twins. -/
theorem Twins.of_keyAt (known : u ∈ g.nodeSet) (same : g.keyAt u = g'.keyAt v) : Twins g g' u v := by
  obtain ⟨s, isState⟩ := Option.isSome_iff_exists.1 known
  rw [keyAt, keyAt, isState] at same
  obtain ⟨s', isState', key⟩ := Option.map_eq_some_iff.1 same.symm
  exact ⟨s, s', isState, isState', key.symm⟩

theorem Twins.keyAt_eq (twins : Twins g g' u v) : g.keyAt u = g'.keyAt v := by
  obtain ⟨s, s', known, known', same⟩ := twins
  rw [keyAt, keyAt, known, known', Option.map_some, Option.map_some, same]

namespace Coherent

theorem injOn_keyAt (coherent : g.Coherent) : g.nodeSet.InjOn g.keyAt := by
  intro u known v _ same
  obtain ⟨s, s', isState, isState', key⟩ := Twins.of_keyAt known same
  exact coherent.eq_of_key isState isState' key

theorem shownSet_subset (coherent : g.Coherent) : g.shownSet ⊆ g.nodeSet := by
  intro u shown
  obtain ⟨e, found⟩ := Option.isSome_iff_exists.1 shown
  obtain ⟨s, shows⟩ := coherent.shows u e found
  exact Option.isSome_iff_exists.2 ⟨s, shows.state⟩

theorem start_mem (coherent : g.Coherent) : Walkable.start g ∈ g.nodeSet := by
  refine Option.isSome_iff_exists.2 ⟨g.start, ?_⟩
  rw [show Walkable.start g = 1 from coherent.startId]
  exact coherent.start

theorem child_mem (coherent : g.Coherent) {l : Nat × ℝ} (member : l ∈ Walk.outlinks w g u) :
    l.1 ∈ g.nodeSet := by
  obtain ⟨links, known, link, isLink, rfl⟩ := Walk.exists_of_mem_outlinks member
  exact coherent.isSome_child known isLink

/-- Links do not leave the nodes of a graph. -/
theorem closed_nodeSet (coherent : g.Coherent) (w : Weighting ℝ) :
    PowerRound.Closed g.nodeSet (Walkable.start g) (Walk.outlinks w g) where
  root := coherent.start_mem
  links _ _ _ member := coherent.child_mem member

/-- The nodes are numbered from the start on. -/
theorem closed_fromStart (coherent : g.Coherent) (w : Weighting ℝ) :
    PowerRound.Closed {u | Walkable.start g ≤ u} (Walkable.start g) (Walk.outlinks w g) where
  root := le_refl (Walkable.start g)
  links _ _ _ member := by
    have bounds := coherent.isSome_state.1 (coherent.child_mem member)
    exact le_of_eq_of_le coherent.startId bounds.1

end Coherent

/-- A graph that gives links grows by them. -/
theorem Grown.granted (grown : Grown m start keys g) (granted : g.Granted g') :
    ∃ keys', Grown m start keys' g' := by
  induction granted with
  | refl => exact ⟨keys, grown⟩
  | @tail g₁ g₂ _ step ih =>
    obtain ⟨keys', grown'⟩ := ih
    obtain ⟨u, e, done⟩ := step
    obtain ⟨s, known⟩ := grown'.coherent.exists_state_of_expanded done
    have asked := grown'.mono (List.subset_cons_self (g₁.code.key s) keys')
    exact ⟨_, (asked.given known List.mem_cons_self done).1⟩

/-- On two graphs of one query nodes carry their keys as labels, and links of twins agree. -/
theorem Grown.renames (grown : Grown m start keys g) (grown' : Grown m start keys' g')
    (alike : m.Alike start) (w : Weighting ℝ) :
    PowerRound.Renames g.keyAt g'.keyAt g.shownSet g'.shownSet (Walkable.start g) (Walkable.start g')
      (Walk.outlinks w g) (Walk.outlinks w g') := by
  have coherent := grown.coherent
  have coherent' := grown'.coherent
  have starts : Twins g g' 1 1 := by
    refine ⟨_, _, coherent.start, coherent'.start, ?_⟩
    rw [grown.origin, grown'.origin, grown.merges.code, grown'.merges.code]
  refine ⟨coherent.injOn_keyAt.mono coherent.shownSet_subset,
    coherent'.injOn_keyAt.mono coherent'.shownSet_subset, ?_, fun u shown v shown' same => ?_⟩
  · rw [show Walkable.start g = 1 from coherent.startId, show Walkable.start g' = 1 from coherent'.startId]
    exact starts.keyAt_eq
  obtain ⟨e, found⟩ := Option.isSome_iff_exists.1 shown
  obtain ⟨e', found'⟩ := Option.isSome_iff_exists.1 shown'
  obtain ⟨s, shows⟩ := coherent.shows u e found
  obtain ⟨s', shows'⟩ := coherent'.shows v e' found'
  have twins := Twins.of_keyAt (coherent.shownSet_subset shown) same
  have key : g.code.key s = g'.code.key s' := by
    rw [keyAt, keyAt, shows.state, shows'.state] at same
    exact Option.some.inj same
  obtain ⟨completed, -, steps⟩ := grown.alike grown' alike shows.state shows'.state key
  obtain ⟨-, links⟩ := shows.twinLinks coherent coherent' starts shows' twins completed steps
  rw [outlinks_of_expansion found, outlinks_of_expansion found', PowerRound.LinksAgree, Walk.weighed,
    Walk.weighed, List.forall₂_map_left_iff, List.forall₂_map_right_iff]
  exact links.imp fun l l' agree => ⟨agree.1.keyAt_eq, congrArg w.weight agree.2⟩

/-- Power iteration on two graphs of one query gives twins the same scores, and only nodes with a twin have
scores. -/
theorem Grown.eq_of_twins (grown : Grown m start keys g) (grown' : Grown m start keys' g')
    (alike : m.Alike start) (iterated : Walk.Iterated w o g f) (iterated' : Walk.Iterated w o g' f') :
    (∀ u v, Twins g g' u v → f u = f' v) ∧ (∀ u, f u ≠ 0 → ∃ v, Twins g g' u v) := by
  have nodes : ↑f.support ⊆ g.nodeSet := by
    rw [iterated.amounts]
    exact (mem_supported ℝ _).1 (PowerRound.after_mem (grown.coherent.closed_nodeSet w) _)
  have nodes' : ↑f'.support ⊆ g'.nodeSet := by
    rw [iterated'.amounts]
    exact (mem_supported ℝ _).1 (PowerRound.after_mem (grown'.coherent.closed_nodeSet w) _)
  have same : mapDomain g.keyAt f = mapDomain g'.keyAt f' := by
    rw [iterated.amounts, iterated'.amounts]
    refine (grown.renames grown' alike w).mapDomain_after o.maxDepth (fun n early u member => ?_)
      fun n early u member => ?_
    · exact isSome_outOf.1 (iterated.asked n early u member)
    · exact isSome_outOf.1 (iterated'.asked n early u member)
  have injOn := grown.coherent.injOn_keyAt
  have injOn' := grown'.coherent.injOn_keyAt
  constructor
  · rintro u v ⟨s, s', known, known', key⟩
    have isNode : u ∈ g.nodeSet := Option.isSome_iff_exists.2 ⟨s, known⟩
    have isNode' : v ∈ g'.nodeSet := Option.isSome_iff_exists.2 ⟨s', known'⟩
    have label : g.keyAt u = g'.keyAt v := Twins.keyAt_eq ⟨s, s', known, known', key⟩
    rw [← mapDomain_apply' g.nodeSet f nodes injOn isNode, same, label,
      mapDomain_apply' g'.nodeSet f' nodes' injOn' isNode']
  · intro u some
    have member := mem_support_iff.2 some
    obtain ⟨v, -, label, -⟩ := PowerRound.exists_like injOn injOn' nodes nodes' same member
    exact ⟨v, .of_keyAt (nodes member) label⟩

end ProofGraph

/-! ### Provers -/

/-- The scores of an array are its entries. -/
theorem toFinsupp_scoresOfArray (a : Array ℝ) : (scoresOfArray a).toFinsupp = arrayFinsupp a := by
  ext u
  rw [Scores.toFinsupp_apply, Scores.at, scoresOfArray_getElem? (by simp), arrayFinsupp_apply]
  split
  · rfl
  · rename_i isZero
    have isZero : entryAt a u = 0 := by simpa using isZero
    exact isZero.symm

namespace Prover

open ProofGraph

variable {rules : List Rule} {program : Program} {relations : List Relation} {kind : GraphKind}
  {labelled : LabelledExample} {features features' : FeatureTable} {o : WalkOptions ℝ}
  {weighter : Weighter ℝ} {scores scores' : Scores ℝ} {g₀ g₀' g g' : ProofGraph}

/-- No weight is negative unless the squashing function is the line or the hyperbolic tangent. -/
theorem weight_nonneg (curved : weighter.squash ≠ .linear) (oneSided : weighter.squash ≠ .tanh) (m : FeatureMap) :
    0 ≤ weighter.weighting.weight m :=
  Squash.apply_nonneg curved oneSided (weighter.score m)

/-- Without negative weights the two forms of power iteration give twins the same scores, and every state that
one of them gives a score other than zero is a node of both graphs. -/
theorem power_forms (compiled : compileRules rules = .ok program)
    (builtIn : ∀ relation ∈ relations, relation.isBuiltIn)
    (fits : ∀ rule ∈ rules, ∀ goal ∈ rule.rhs, goal.arity < Text.wordLimit)
    (fitsQuery : ∀ goal ∈ labelled.query.goals, goal.arity < Text.wordLimit)
    (lawful : features.Lawful) (lawful' : features'.Lawful) (nonneg : 0 ≤ o.alpha) (atMostOne : o.alpha ≤ 1)
    (weights : ∀ m, 0 ≤ weighter.weighting.weight m)
    (made : ProofGraph.new kind labelled program relations features = .ok g₀)
    (made' : ProofGraph.new .cachingId labelled program relations features' = .ok g₀')
    (done : (new .ppr o weighter).proveOn g₀ = (.ok scores, g))
    (done' : (new .idppr o weighter).proveOn g₀' = (.ok scores', g')) :
    (∀ u v, Twins g g' u v → scores.at u = scores'.at v) ∧
      (∀ u, scores.at u ≠ 0 → ∃ v, Twins g g' u v) ∧ ∀ v, scores'.at v ≠ 0 → ∃ u, Twins g g' u v := by
  obtain ⟨machines, starts⟩ := machine_eq_of_new rfl made made'
  have alike := alike_of_new compiled builtIn fits fitsQuery made
  -- the form over a map
  change ((new .ppr o weighter).prove (session g₀)).map id (·.graph) = _ at done
  rw [prove_ppr, Walk.powerSparse_eq] at done
  obtain ⟨walked, rfl⟩ := Prod.mk.inj done
  have ran : Walk.powerIn (fun _ scores => scores.toList) weighter.weighting o (session g₀) =
    (.ok scores, _) := Prod.ext walked rfl
  obtain ⟨-, iterated⟩ := Walk.powerIn_iterated (fun _ scores => .refl _) ran
  obtain ⟨keys, grown⟩ := (grown_new lawful made).granted (Walk.powerIn_keeps _ _ o _ _ _ ran)
  -- the form over an array
  rw [proveOn_idppr o weighter (kind_new made')] at done'
  obtain ⟨walked', rfl⟩ := Prod.mk.inj done'
  obtain ⟨a, isArray, rfl⟩ := Except.map_eq_ok.1 walked'
  have ran' : Walk.powerDense weighter.weighting o (session g₀') = (.ok a, _) := Prod.ext isArray rfl
  obtain ⟨keys', grown'⟩ :=
    (grown_new lawful' made').granted ((Walk.closed_keeps _).powerDense o _ _ _ ran')
  rw [← machines, ← starts] at grown'
  have iterated' := Walk.powerDense_iterated ran' (grown'.coherent.closed_fromStart _) nonneg atMostOne weights
  rw [← toFinsupp_scoresOfArray] at iterated'
  obtain ⟨same, twin⟩ := grown.eq_of_twins grown' alike iterated iterated'
  obtain ⟨-, twin'⟩ := grown'.eq_of_twins grown alike iterated' iterated
  refine ⟨same, twin, fun v some => ?_⟩
  obtain ⟨u, twins⟩ := twin' v some
  exact ⟨u, twins.symm⟩

end Prover

end ProofWalk
