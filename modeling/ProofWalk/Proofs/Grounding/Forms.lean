import ProofWalk.Proofs.Exact
import ProofWalk.Grounding.Basic
import ProofWalk.Proofs.ProofGraph.Recorded
import ProofWalk.Proofs.Prover.Forms

/-!
# Grounding with either form of local push

Grounded with the local push over maps or with the one over arrays, an example gives the same graph and
the same table of features. The scores differ in one thing: a node that has settled nothing has a score
of zero over maps and none over arrays, so that it is listed among the nodes of the labels in the one
case and not in the other.

## Main results

* `scoresOfArray_keys` — the nodes that an array scores
* `pushDense_refines_pushSparse` — the two forms, and what is grounded with them
-/

namespace ProofWalk

/-! ### Scores -/

section Scores

variable {K : Type} [Scalar K]

/-- The scores of an array are its entries, but for those that are zero. -/
theorem scoresOfArray_getElem? (zero : ((0 : K) != 0) = false) (a : Array K) (u : Nat) :
    (scoresOfArray a)[u]? = if entryAt a u != 0 then some (entryAt a u) else none := by
  -- the entries in front of an index have been scored
  have scored : ∀ n, n ≤ a.size → ∀ u : Nat,
      ((List.range n).foldl (fun scores u =>
        if entryAt a u != 0 then scores.insert u (entryAt a u) else scores) (∅ : Scores K))[u]? =
      if u < n ∧ (entryAt a u != 0) = true then some (entryAt a u) else none := by
    intro n
    induction n with
    | zero =>
      intro _ u
      rw [List.range_zero, List.foldl_nil, Std.TreeMap.getElem?_emptyc, if_neg (by omega)]
    | succ n ih =>
      intro inside u
      have before := ih (by omega) u
      rw [List.range_succ, List.foldl_append, List.foldl_cons, List.foldl_nil]
      by_cases last : u = n
      · subst last
        rw [if_neg (by omega)] at before
        split
        · rename_i positive
          rw [Std.TreeMap.getElem?_insert_self, if_pos ⟨by omega, positive⟩]
        · rename_i isZero
          rw [before, if_neg fun both => isZero both.2]
      · have same : (u < n + 1 ∧ (entryAt a u != 0) = true) ↔ (u < n ∧ (entryAt a u != 0) = true) :=
          and_congr_left fun _ => by omega
        rw [if_congr same rfl rfl, ← before]
        split
        · rw [Std.TreeMap.getElem?_insert, if_neg (by simpa using Ne.symm last)]
        · rfl
  rw [scoresOfArray, scored a.size le_rfl u]
  by_cases inside : u < a.size
  · rw [if_congr (and_iff_right inside) rfl rfl]
  · have outside : entryAt a u = 0 := by
      rw [entryAt, Array.getElem?_eq_none (Nat.le_of_not_lt inside)]
      rfl
    rw [if_neg fun both => inside both.1, outside, zero]
    rfl

/-- An array scores the nodes of a map with the same amounts, but for those with zero. -/
theorem scoresOfArray_keys (zero : ((0 : K) != 0) = false) {s : Scores K} {a : Array K}
    (tells : s.Tells a) : (scoresOfArray a).keys = s.keys.filter fun u => s.at u != 0 := by
  have increasing (s : Scores K) : s.keys.Pairwise (· < ·) :=
    s.ordered_keys.imp fun before => Nat.compare_eq_lt.1 before
  refine List.Perm.eq_of_pairwise (fun a b _ _ (first : a < b) (second : b < a) => by omega)
    (increasing _) ((increasing s).filter _) ?_
  refine (List.perm_ext_iff_of_nodup ((increasing _).imp Nat.ne_of_lt)
    (((increasing s).filter _).imp Nat.ne_of_lt)).2 fun u => ?_
  rw [List.mem_filter, Std.TreeMap.mem_keys, Std.TreeMap.mem_keys, Std.TreeMap.mem_iff_isSome_getElem?,
    Std.TreeMap.mem_iff_isSome_getElem?, scoresOfArray_getElem? zero, tells u]
  -- a node that the map does not score has an amount of zero
  have unscored : s[u]? = none → entryAt a u = 0 := by
    intro none
    rw [← tells u, Scores.at, none]
    rfl
  cases scored : s[u]? with
  | none => simp [unscored scored, zero]
  | some x => split <;> simp_all

end Scores

/-! ### Provers -/

/-- A new graph is of the kind that was asked for. -/
theorem ProofGraph.kind_new {kind : GraphKind} {labelled : LabelledExample} {program : Program}
    {relations : List Relation} {features : FeatureTable} {g : ProofGraph}
    (made : ProofGraph.new kind labelled program relations features = .ok g) : g.kind = kind := by
  unfold ProofGraph.new at made
  split at made
  · cases made
  · cases made
    cases kind <;> rfl

namespace Prover

variable {K : Type} [Scalar K] (o : WalkOptions K) (weighter : Weighter K)

/-- A prover whose scores are a part of what a walk gives. -/
private theorem proveOn_of_walk {p : Prover K} {g : ProofGraph} {α : Type} {walk : Walk ProofGraph α}
    {part : α → Scores K}
    (proves : p.prove (session g) = (walk >>= fun a => pure (part a)) (session g)) :
    p.proveOn g = ((walk (session g)).1.map part, (walk (session g)).2.graph) := by
  change ((p.prove (session g)).1, (p.prove (session g)).2.graph) = _
  rw [proves, bind_apply]
  rcases walk (session g) with ⟨_ | a, s⟩ <;> rfl

omit [Scalar K] in
/-- All new provers walk on graphs over arrays. -/
theorem enter_new (kind : ProverKind) {g : ProofGraph} (isKind : g.kind = .cachingId) :
    (new kind o weighter).enter (session g) = (.ok (), session g) := by
  have fits : (g.kind != .cachingId) = false := by
    rw [isKind]
    rfl
  change (if kind.graphKind == .cachingId && g.kind != .cachingId then _ else _) = _
  rw [fits, Bool.and_false]
  rfl

theorem prove_ppr : (new .ppr o weighter).prove = Walk.powerSparse weighter.weighting o := by
  funext s
  rw [prove, bind_apply]
  rfl

theorem prove_dpr : (new .dpr o weighter).prove =
    Walk.pushSparse weighter.weighting o >>= fun m => pure m.settled := by
  funext s
  rw [prove, bind_apply]
  rfl

theorem proveOn_dpr (g : ProofGraph) :
    (new .dpr o weighter).proveOn g =
      ((Walk.pushSparse weighter.weighting o walkLimit (session g)).1.map (·.settled),
        (Walk.pushSparse weighter.weighting o walkLimit (session g)).2.graph) :=
  proveOn_of_walk (congrFun (prove_dpr o weighter) (session g))

theorem proveOn_iddpr {g : ProofGraph} (kind : g.kind = .cachingId) :
    (new .iddpr o weighter).proveOn g =
      ((Walk.pushDense weighter.weighting o walkLimit (session g)).1.map (scoresOfArray ·.settled),
        (Walk.pushDense weighter.weighting o walkLimit (session g)).2.graph) := by
  refine proveOn_of_walk ?_
  rw [prove, bind_apply, enter_new o weighter .iddpr kind]
  rfl

theorem proveOn_idppr {g : ProofGraph} (kind : g.kind = .cachingId) :
    (new .idppr o weighter).proveOn g =
      ((Walk.powerDense weighter.weighting o (session g)).1.map scoresOfArray,
        (Walk.powerDense weighter.weighting o (session g)).2.graph) := by
  refine proveOn_of_walk ?_
  rw [prove, bind_apply, enter_new o weighter .idppr kind]
  rfl

end Prover

namespace Grounder

variable {K : Type} [Scalar K]

/-- The nodes of labels among some of the nodes. -/
theorem labelNodes_filter (g : ProofGraph) (nodes : List Nat) (labels : List String) (p : Nat → Bool) :
    labelNodes g (nodes.filter p) labels = (labelNodes g nodes labels).filter p := by
  rw [labelNodes, labelNodes, List.filter_filter, List.filter_filter]
  simp only [Bool.and_comm]

/-- Alike graphs have the same nodes for labels. -/
theorem labelNodes_alike {g g' : ProofGraph} (alike : g.Alike g') (nodes : List Nat)
    (labels : List String) : labelNodes g' nodes labels = labelNodes g nodes labels := by
  have state := alike.state
  have fill (s : State) : g'.fill s = g.fill s := by rw [alike.rest]; rfl
  unfold labelNodes
  simp only [state, fill]

/-- What is grounded with two provers that give alike graphs, of which the second scores the nodes that the
first gives a score other than zero. -/
theorem ground_alike {r : Grounder} {p p' : Prover K} {features : FeatureTable} {e : LabelledExample}
    (proves : Corresponds
      (fun g g' => (p.proveOn g).2.Alike (p'.proveOn g').2 ∧
        Corresponds (fun s s' : Scores K => s'.keys = s.keys.filter fun u => s.at u != 0)
          (p.proveOn g).1 (p'.proveOn g').1)
      (p.makeGraph e r.program r.relations features) (p'.makeGraph e r.program r.relations features)) :
    (r.ground p' features e).2 = (r.ground p features e).2 ∧
      Corresponds
        (fun x y => x.graph.Alike y.graph ∧ ∃ g scores,
          p.makeGraph e r.program r.relations features = .ok g ∧
          p.proveOn g = (.ok scores, x.graph) ∧
          y.pos = x.pos.filter (fun u => scores.at u != 0) ∧
          y.neg = x.neg.filter (fun u => scores.at u != 0))
        (r.ground p features e).1 (r.ground p' features e).1 := by
  unfold ground
  rcases e.checkLabels with err | _
  · exact ⟨rfl, .error err⟩
  generalize p.makeGraph e r.program r.relations features = x at proves
  generalize p'.makeGraph e r.program r.relations features = y at proves
  cases proves with
  | error err => exact ⟨rfl, .error err⟩
  | @ok g g' related =>
    obtain ⟨alike, scored⟩ := related
    rcases ran : p.proveOn g with ⟨result, g₁⟩
    rcases ran' : p'.proveOn g' with ⟨result', g₁'⟩
    rw [ran, ran'] at alike scored
    have table : g₁'.features = g₁.features := by rw [show g₁' = _ from alike.rest]
    simp only [ran, ran']
    cases scored with
    | error err => exact ⟨table, .error err⟩
    | @ok scores scores' keys =>
      refine ⟨table, .ok ⟨alike, g, scores, rfl, ran, ?_, ?_⟩⟩
      · simp only [Std.TreeMap.map_fst_toList_eq_keys, keys]
        rw [labelNodes_alike alike, labelNodes_filter]
      · simp only [Std.TreeMap.map_fst_toList_eq_keys, keys]
        rw [labelNodes_alike alike, labelNodes_filter]

end Grounder

/-- The grounded lines of alike graphs differ at most in the nodes of the labels. -/
theorem GroundedExample.line_alike {x y : GroundedExample} (alike : x.graph.Alike y.graph) :
    y.line = { x with pos := y.pos, neg := y.neg }.line := by
  have labelled : y.labelled = x.labelled := by
    rw [GroundedExample.labelled, GroundedExample.labelled, alike.rest]
  rw [GroundedExample.line, labelled, alike.line]
  rfl

/-- The walks of the two forms on alike graphs. -/
theorem Walk.push_alike {K : Type} [Scalar K] (w : Weighting K) (o : WalkOptions K) (bound : Nat)
    {g g' : ProofGraph} (alike : g.Alike g') :
    Corresponds SparseMass.Agrees (pushSparse w o bound (Prover.session g)).1
        (pushDense w o bound (Prover.session g')).1 ∧
      Session.Alike (pushSparse w o bound (Prover.session g)).2
        (pushDense w o bound (Prover.session g')).2 :=
  push_simulates w o bound _ _ ⟨alike, rfl⟩

/-- What the provers of the two forms give, on graphs of their kinds. -/
theorem Prover.proveOn_forms {K : Type} [Scalar K] (zero : ((0 : K) != 0) = false)
    (o : WalkOptions K) (weighter : Weighter K) (e : LabelledExample) (program : Program)
    (relations : List Relation) (features : FeatureTable) :
    Corresponds
      (fun g g' => ((new .dpr o weighter).proveOn g).2.Alike ((new .iddpr o weighter).proveOn g').2 ∧
        Corresponds (fun s s' : Scores K => s'.keys = s.keys.filter fun u => s.at u != 0)
          ((new .dpr o weighter).proveOn g).1 ((new .iddpr o weighter).proveOn g').1)
      (ProofGraph.new .state e program relations features)
      (ProofGraph.new .cachingId e program relations features) := by
  have graphs := ProofGraph.alike_new e program relations features
  have kind (g') := @ProofGraph.kind_new .cachingId e program relations features g'
  generalize ProofGraph.new .state e program relations features = x at graphs
  generalize ProofGraph.new .cachingId e program relations features = y at graphs kind
  cases graphs with
  | error err => exact .error err
  | @ok g g' alike =>
    obtain ⟨masses, sessions⟩ := Walk.push_alike weighter.weighting o walkLimit alike
    refine .ok ?_
    rw [proveOn_dpr, proveOn_iddpr o weighter (kind g' rfl)]
    refine ⟨sessions.graph, ?_⟩
    generalize (Walk.pushSparse weighter.weighting o walkLimit (session g)).1 = m at masses
    generalize (Walk.pushDense weighter.weighting o walkLimit (session g')).1 = m' at masses
    cases masses with
    | error err => exact .error err
    | ok same => exact .ok (scoresOfArray_keys zero same.settled)

theorem float_zero_ne : ((0 : Float) != 0) = false := by decide +kernel

/-- The local push over arrays refines the one over maps, whatever numbers they compute with: on graphs of
their kinds they fail alike, or both end with the same numbers at every node, on graphs with the same
nodes and edges. What is grounded with either is therefore the same, but for the nodes of labels: the
form over arrays leaves out those that have settled nothing. -/
theorem pushDense_refines_pushSparse :
    (∀ {K : Type} [Scalar K] (w : Weighting K) (o : WalkOptions K) (bound : Nat) (e : LabelledExample)
        (program : Program) (relations : List Relation) (features : FeatureTable),
      Corresponds
        (fun g g' => g.Alike g' ∧
          Corresponds SparseMass.Agrees (Walk.pushSparse w o bound (Prover.session g)).1
            (Walk.pushDense w o bound (Prover.session g')).1 ∧
          Session.Alike (Walk.pushSparse w o bound (Prover.session g)).2
            (Walk.pushDense w o bound (Prover.session g')).2)
        (ProofGraph.new .state e program relations features)
        (ProofGraph.new .cachingId e program relations features)) ∧
    ∀ (r : Grounder) (o : WalkOptions Float) (weighter : Weighter Float) (features : FeatureTable)
        (e : LabelledExample),
      (r.ground (.new .iddpr o weighter) features e).2 =
          (r.ground (.new .dpr o weighter) features e).2 ∧
        Corresponds
          (fun x y => x.graph.Alike y.graph ∧ ∃ g scores,
            (Prover.new .dpr o weighter).makeGraph e r.program r.relations features = .ok g ∧
            (Prover.new .dpr o weighter).proveOn g = (.ok scores, x.graph) ∧
            y.pos = x.pos.filter (fun u => scores.at u != 0) ∧
            y.neg = x.neg.filter (fun u => scores.at u != 0) ∧
            y.line = { x with pos := y.pos, neg := y.neg }.line ∧
            ((∀ u ∈ x.pos ++ x.neg, scores.at u != 0) → y.line = x.line))
          (r.ground (.new .dpr o weighter) features e).1
          (r.ground (.new .iddpr o weighter) features e).1 := by
  refine ⟨?_, ?_⟩
  · intro K _ w o bound e program relations features
    have graphs := ProofGraph.alike_new e program relations features
    generalize ProofGraph.new .state e program relations features = x at graphs
    generalize ProofGraph.new .cachingId e program relations features = y at graphs
    cases graphs with
    | error e => exact .error e
    | ok alike => exact .ok ⟨alike, Walk.push_alike w o bound alike⟩
  intro r o weighter features e
  obtain ⟨table, grounded⟩ := Grounder.ground_alike (r := r)
    (Prover.proveOn_forms float_zero_ne o weighter e r.program r.relations features)
  refine ⟨table, ?_⟩
  generalize (r.ground (.new .dpr o weighter) features e).1 = x at grounded
  generalize (r.ground (.new .iddpr o weighter) features e).1 = y at grounded
  cases grounded with
  | error err => exact .error err
  | @ok x y related =>
    obtain ⟨alike, g, scores, made, proved, pos, neg⟩ := related
    have line := GroundedExample.line_alike alike
    refine .ok ⟨alike, g, scores, made, proved, pos, neg, line, fun settled => ?_⟩
    have all : y.pos = x.pos ∧ y.neg = x.neg := by
      rw [pos, neg, List.filter_eq_self, List.filter_eq_self]
      exact ⟨fun u member => settled u (List.mem_append_left _ member),
        fun u member => settled u (List.mem_append_right _ member)⟩
    rw [line, all.1, all.2]

/-! ### A walk that settles nothing -/

/-- Options that settle nothing of what is pushed. -/
def restless : WalkOptions Float :=
  { alpha := 0, epsilon := 0.3, maxDepth := 20, stay := 0, maxTreeDepth := none }

/-- Nine tenths of what is pushed at the question go to the answer. -/
def forward : Weighter Float := { parameters := .ofList [("go", 9)], squash := .relu }

/-- The mass with the question pushed once. -/
def pushedOnce : SparseMass Float :=
  SparseMass.push restless 1 [(2, 9), (1, 1)] 10 1
    { settled := ∅, residual := (∅ : Scores Float).insert 1 1 }

/-- The mass with the answer pushed once as well. -/
def pushedTwice : SparseMass Float :=
  pushedOnce.push restless 2 [(2, 1), (1, 1)] 2 (pushedOnce.residual.at 2)

namespace ProofGraph.FactGraphs

variable {g g₁ g₂ : ProofGraph} {e₁ e₂ : Expansion}

/-- The question is pushed once, and so is the answer; then neither is above the threshold. -/
theorem pushSparse_restless (graphs : FactGraphs g g₁ g₂ e₁ e₂) (bound : Nat) :
    ∃ tally, Walk.pushSparse forward.weighting restless (bound + 3) (Prover.session g) =
      (.ok pushedTwice, ⟨g₂, tally⟩) := by
  have weighed₁ : Walk.weighed forward.weighting (e₁.links true) = [(2, 9), (1, 1)] := by
    rw [graphs.links₁]
    decide +kernel
  have weighed₂ : Walk.weighed forward.weighting (e₂.links true) = [(2, 1), (1, 1)] := by
    rw [graphs.links₂]
    decide +kernel
  have two : (Scalar.ofNat 2 : Float) = 2 := by decide +kernel
  have degree₁ : (Scalar.ofNat (e₁.links true).length : Float) = 2 := by rw [graphs.links₁]; exact two
  have degree₂ : (Scalar.ofNat (e₂.links true).length : Float) = 2 := by rw [graphs.links₂]; exact two
  have total₁ : Scalar.sum ([((2 : Nat), (9 : Float)), (1, 1)].map (·.2)) = 10 := by decide +kernel
  have total₂ : Scalar.sum ([((2 : Nat), (1 : Float)), (1, 1)].map (·.2)) = 2 := by decide +kernel
  obtain ⟨t₁, weighs₁⟩ := Walk.weighLinks_of_expanded forward.weighting graphs.again₁ .zero
  obtain ⟨t₂, weighs₂⟩ := Walk.weighLinks_of_expanded forward.weighting graphs.againEnd t₁
  rw [weighed₁, total₁] at weighs₁
  rw [weighed₂, total₂] at weighs₂
  have asks := Walk.degree_of_expanded (K := Float) graphs.first .zero
  have asks₁ := Walk.degree_of_expanded (K := Float) graphs.second t₁
  have asks₂ := Walk.degree_of_expanded (K := Float) graphs.againEnd t₂
  have asksAgain := Walk.degree_of_expanded (K := Float) graphs.again₂ t₂
  rw [degree₁] at asks asksAgain
  rw [degree₂] at asks₁ asks₂
  -- the answer, which its own loop leads back to
  have answer : (PushOps.sparse restless).pass forward.weighting restless (bound + 3) 0.3 (bound + 2) 2 2
      pushedOnce ⟨g₁, t₁⟩ = (.ok (1, pushedTwice), ⟨g₂, t₂⟩) := by
    have drained : (PushOps.sparse restless).drain 0.3 2 2 [(2, 1), (1, 1)] 2 (bound + 3) pushedOnce =
        some pushedTwice := by
      rw [PushOps.drain, if_pos (by decide +kernel), PushOps.drain, if_neg (by decide +kernel)]
      rfl
    rw [PushOps.pass_of_above rfl asks₁ (by decide +kernel) weighs₂ (by decide +kernel) drained,
      show Walkable.start g₂ = 1 from graphs.startId₂,
      List.foldlM_cons, bind_apply, PushOps.visit,
      if_neg (by decide +kernel), bind_apply,
      PushOps.pass_of_below rfl asks₂ (by decide +kernel)]
    rfl
  have first : (PushOps.sparse restless).pass forward.weighting restless (bound + 3) 0.3 (bound + 3) 1 1
      { settled := ∅, residual := (∅ : Scores Float).insert 1 1 } ⟨g, .zero⟩ =
        (.ok (2, pushedTwice), ⟨g₂, t₂⟩) := by
    have drained : (PushOps.sparse restless).drain 0.3 2 1 [(2, 9), (1, 1)] 10 (bound + 3)
        { settled := ∅, residual := (∅ : Scores Float).insert 1 1 } = some pushedOnce := by
      rw [PushOps.drain, if_pos (by decide +kernel), PushOps.drain, if_neg (by decide +kernel)]
      rfl
    rw [PushOps.pass_of_above rfl asks (by decide +kernel) weighs₁ (by decide +kernel) drained,
      show Walkable.start g₁ = 1 from graphs.startId₁,
      List.foldlM_cons, bind_apply, PushOps.visit,
      if_neg (by decide +kernel), bind_apply, answer]
    rfl
  have second : (PushOps.sparse restless).pass forward.weighting restless (bound + 3) 0.3 (bound + 3) 1 1
      pushedTwice ⟨g₂, t₂⟩ = (.ok (0, pushedTwice), ⟨g₂, t₂⟩) :=
    PushOps.pass_of_below rfl asksAgain (by decide +kernel)
  have once : tightened restless 1 = 0.3 := by decide +kernel
  have twice : tightened restless 0.3 = 0.3 := by decide +kernel
  refine ⟨t₂, ?_⟩
  rw [Walk.pushSparse, bind_apply]
  change Walk.tightenSparse _ _ _ (Walkable.start g) _ _
    { settled := ∅, residual := (∅ : Scores Float).insert (Walkable.start g) 1 } ⟨g, .zero⟩ = _
  rw [show Walkable.start g = 1 from graphs.startId, Walk.tightenSparse_eq, PushOps.tighten, once,
    bind_apply, first]
  simp only
  rw [if_neg (by decide +kernel), PushOps.tighten, twice, bind_apply, second]
  simp only
  rw [if_pos (by decide +kernel)]
  rfl

theorem proveOn_restless (graphs : FactGraphs g g₁ g₂ e₁ e₂) :
    (Prover.new .dpr restless forward).proveOn g = (.ok pushedTwice.settled, g₂) := by
  have limit : walkLimit - 3 + 3 = walkLimit := Nat.sub_add_cancel (by decide)
  obtain ⟨tally, walk⟩ := graphs.pushSparse_restless (walkLimit - 3)
  rw [limit] at walk
  rw [Prover.proveOn_dpr, walk]
  rfl

end ProofGraph.FactGraphs

/-- What grounds the question of the fact. -/
def factGrounder : Grounder :=
  { program := ProofGraph.factProgram, relations := [], includeUnlabelled := false }

open ProofGraph in
/-- The walk that settles nothing lists the answer. -/
theorem ground_restless :
    ∃ x g scores, (factGrounder.ground (.new .dpr restless forward) .empty askFact).1 = .ok x ∧
      ProofGraph.new .state askFact factProgram [] .empty = .ok g ∧
      (Prover.new .dpr restless forward).proveOn g = (.ok scores, x.graph) ∧
      scores = pushedTwice.settled ∧ x.pos = [2] ∧ x.neg = [] := by
  obtain ⟨g, made, isCode, isStart⟩ := exists_factGraph .state .empty
  obtain ⟨g₁, g₂, e₁, e₂, graphs⟩ :=
    exists_factGraphs FeatureTable.lawful_empty ⟨by decide, by decide⟩ made isCode isStart
  obtain ⟨coherent, isLabelled, -⟩ := coherent_new FeatureTable.lawful_empty made
  have proved := graphs.proveOn_restless
  -- the question does not complete the proof, the answer does, and it is the label
  have isFirst : g₂.store.state? 1 = some factStart := by
    rw [← isStart]
    exact graphs.more.state 1 _ coherent.start
  have fill : (g₂.fill factEnd).text = "p(a)" := by
    rw [ProofGraph.fill, graphs.more.code, graphs.more.labelled, isCode, isLabelled]
    decide +kernel
  have keys : pushedTwice.settled.toList.map (·.1) = [1, 2] := by decide +kernel
  have goesOn : factStart.completed = false := by decide +kernel
  have ended : factEnd.completed = true := by decide +kernel
  have labels : askFact.pos.map (·.text) = ["p(a)"] := by decide +kernel
  have listed (labels : List String) : Grounder.labelNodes g₂ [1, 2] labels =
      if labels.contains "p(a)" then [2] else [] := by
    rw [Grounder.labelNodes, List.filter_cons, List.filter_cons, List.filter_nil]
    simp only [isFirst, graphs.isEnd, goesOn, ended, fill, Bool.false_and, Bool.true_and]
    rfl
  refine ⟨{ graph := g₂, pos := [2], neg := [] }, g, _, ?_, made, proved, rfl, rfl, rfl⟩
  have checked : askFact.checkLabels = .ok () := by decide +kernel
  have makes : (Prover.new .dpr restless forward).makeGraph askFact factGrounder.program
      factGrounder.relations .empty = .ok g := made
  rw [Grounder.ground, checked]
  simp only [makes, proved, keys, listed]
  rfl

/-- The answer has settled nothing, and only the form over maps lists it. -/
theorem grounded_lines_differ :
    ∃ x y, (factGrounder.ground (.new .dpr restless forward) .empty ProofGraph.askFact).1 = .ok x ∧
      (factGrounder.ground (.new .iddpr restless forward) .empty ProofGraph.askFact).1 = .ok y ∧
      x.pos = [2] ∧ y.pos = [] ∧ x.line ≠ y.line := by
  obtain ⟨x, g, scores, grounds, made, proved, rfl, pos, neg⟩ := ground_restless
  have grounded := (Grounder.ground_alike (r := factGrounder) (Prover.proveOn_forms float_zero_ne
    restless forward ProofGraph.askFact ProofGraph.factProgram [] .empty)).2
  rw [grounds] at grounded
  generalize (factGrounder.ground (.new .iddpr restless forward) .empty ProofGraph.askFact).1 = r
    at grounded
  cases grounded with
  | @ok _ y related =>
  obtain ⟨alike, g', scores', made', proved', pos', neg'⟩ := related
  obtain rfl : g = g' := Except.ok.inj (made.symm.trans made')
  obtain rfl : pushedTwice.settled = scores' :=
    Except.ok.inj (congrArg Prod.fst (proved.symm.trans proved'))
  have unsettled : (pushedTwice.settled.at 2 != 0) = false := by decide +kernel
  rw [pos, List.filter_cons, unsettled] at pos'
  rw [neg] at neg'
  refine ⟨x, y, grounds, rfl, pos, pos', fun same => ?_⟩
  -- the line without the node is shorter
  rw [GroundedExample.line_alike alike, pos', neg'] at same
  have written (p n : List Nat) : GroundedExample.line { x with pos := p, neg := n } =
      x.labelled.query.text ++ "\t" ++ GroundedExample.nodesText p ++ "\t" ++
        GroundedExample.nodesText n ++ "\t" ++ x.graph.line false := rfl
  have isLine : x.line = GroundedExample.line { x with pos := [2], neg := [] } := by rw [← pos, ← neg]
  rw [isLine, written, written] at same
  have lengths := congrArg String.length same
  have node : (GroundedExample.nodesText [2]).length = 1 := by decide +kernel
  have none : (GroundedExample.nodesText []).length = 0 := by decide +kernel
  simp only [String.length_append, node, List.filter_nil, Bool.false_eq_true, if_false, none] at lengths
  omega

end ProofWalk
