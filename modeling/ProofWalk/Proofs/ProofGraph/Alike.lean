import ProofWalk.Proofs.ProofGraph.Calls

/-!
# Proof graphs of either kind

A proof graph over maps and a proof graph over arrays differ in their stores only. As long as both stores
hold the same, whatever is asked of one graph is answered alike by the other, and the stores go on
holding the same.

## Main definitions

* `ProofGraph.Alike` — graphs that differ in their stores only, which hold the same
* `ProofGraph.LooksLike` — what can be seen of two graphs is the same

## Main results

* `ProofGraph.Alike.expanded` — alike graphs give the same links and stay alike
* `ProofGraph.alike_new` — new graphs of either kind are alike
* `ProofGraph.stores_interchangeable` — calls do not tell stores or graphs apart
-/

namespace ProofWalk

namespace ProofGraph

/-- Two graphs differ in their stores only, which hold the same states and edges. -/
structure Alike (g g' : ProofGraph) : Prop where
  rest : g' = { g with store := g'.store }
  store : g.store.HoldsSame g'.store

namespace Alike

variable {g g' : ProofGraph} {u : Nat} {s : State}

theorem of_store {store : GraphStore} (same : g.store.HoldsSame store) : g.Alike { g with store } :=
  ⟨rfl, same⟩

theorem state (alike : g.Alike g') (u : Nat) : g'.store.state? u = g.store.state? u :=
  (alike.store.looksLike.state u).symm

theorem line (alike : g.Alike g') (inline : Bool) : g'.line inline = g.line inline := by
  have features : g'.features = g.features := by rw [alike.rest]
  rw [ProofGraph.line, ProofGraph.line, features]
  exact (alike.store.looksLike.line _ _).symm

theorem classNode (alike : g.Alike g') (s : State) :
    (g.classNode s).1 = (g'.classNode s).1 ∧ (g.classNode s).2.Alike (g'.classNode s).2 := by
  obtain ⟨rest, same⟩ := alike
  generalize g'.store = store at rest same
  subst rest
  -- the same state represents the class in both
  unfold ProofGraph.classNode representative
  rcases found : g.classes[g.code.key s]? with _ | r
  · simp only [found]
    obtain ⟨node, more⟩ := same.nodeId s
    exact ⟨node, rfl, more⟩
  · simp only [found]
    obtain ⟨node, more⟩ := same.nodeId r
    exact ⟨node, rfl, more⟩

theorem idFor (alike : g.Alike g') (s : State) :
    (g.idFor s).1 = (g'.idFor s).1 ∧ (g.idFor s).2.Alike (g'.idFor s).2 := by
  rw [ProofGraph.idFor, ProofGraph.idFor, ← alike.store.looksLike.id s]
  split
  · exact ⟨rfl, alike⟩
  · exact alike.classNode s

theorem linksTo (alike : g.Alike g') (steps : List Outlink) :
    (g.linksTo steps).1 = (g'.linksTo steps).1 ∧ (g.linksTo steps).2.Alike (g'.linksTo steps).2 := by
  induction steps generalizing g g' with
  | nil => exact ⟨rfl, alike⟩
  | cons o rest ih =>
    obtain ⟨same, alike₁⟩ := alike.classNode o.child
    obtain ⟨others, alike'⟩ := ih alike₁
    refine ⟨?_, alike'⟩
    change { child := (g.classNode o.child).1, features := o.features } ::
        ((g.classNode o.child).2.linksTo rest).1 =
      { child := (g'.classNode o.child).1, features := o.features } ::
        ((g'.classNode o.child).2.linksTo rest).1
    rw [same, others]

theorem expand (alike : g.Alike g') (u : Nat) (s : State) :
    (g.expand u s).1 = (g'.expand u s).1 ∧ (g.expand u s).2.Alike (g'.expand u s).2 := by
  have code : g'.code = g.code := by rw [alike.rest]
  have startId : g'.startId = g.startId := by rw [alike.rest]
  have steps : g'.steps s = g.steps s := by rw [ProofGraph.steps, ProofGraph.steps, code]
  unfold ProofGraph.expand
  rw [steps]
  rcases g.steps s with e | steps
  · exact ⟨rfl, alike⟩
  · obtain ⟨same, alike'⟩ := alike.linksTo steps
    have startId' : (g'.linksTo steps).2.startId = (g.linksTo steps).2.startId := by
      rw [(g'.linksTo_expansions steps).2, (g.linksTo_expansions steps).2, startId]
    simp only [same, startId']
    exact ⟨trivial, alike'⟩

theorem record (alike : g.Alike g') (u : Nat) (e : Expansion) (loops : Bool) :
    (g.record u e loops).1 = (g'.record u e loops).1 ∧
      (g.record u e loops).2.Alike (g'.record u e loops).2 := by
  obtain ⟨rest, same⟩ := alike
  generalize g'.store = store at rest same
  subst rest
  unfold ProofGraph.record
  split
  · rcases edgesOf g.features (e.links loops) with ⟨err | es, features⟩
    · exact ⟨rfl, of_store same⟩
    · exact ⟨rfl, rfl, same.setEdges u es⟩
  · exact ⟨rfl, of_store same⟩

/-- Alike graphs give the same links or fail alike, and they stay alike. -/
theorem expanded (alike : g.Alike g') (u : Nat) (loops : Bool) :
    (g.expanded u loops).1 = (g'.expanded u loops).1 ∧
      (g.expanded u loops).2.Alike (g'.expanded u loops).2 := by
  have expansions : g'.expansions = g.expansions := by rw [alike.rest]
  have state := alike.state u
  unfold ProofGraph.expanded
  rw [expansions, state]
  rcases g.expansions[u]? with _ | e
  · rcases g.store.state? u with _ | s
    · exact ⟨rfl, alike⟩
    obtain ⟨same, alike'⟩ := alike.expand u s
    rcases ran : g.expand u s with ⟨r, g₁⟩
    rcases ran' : g'.expand u s with ⟨r', g₁'⟩
    rw [ran, ran'] at same alike'
    obtain rfl : r = r' := same
    simp only [ran, ran']
    rcases r with err | e
    · exact ⟨rfl, alike'⟩
    · -- the expansion is noted in both
      have noted : Alike { g₁ with expansions := g₁.expansions.insert u e }
          { g₁' with expansions := g₁'.expansions.insert u e } := by
        obtain ⟨rest, same⟩ := alike'
        change g₁' = { g₁ with store := g₁'.store } at rest
        refine ⟨?_, same⟩
        rw [rest]
      exact noted.record u e loops
  · exact alike.record u e loops

theorem links (alike : g.Alike g') (u : Nat) (loops : Bool) :
    (g.links u loops).1 = (g'.links u loops).1 ∧ (g.links u loops).2.Alike (g'.links u loops).2 := by
  obtain ⟨same, after⟩ := alike.expanded u loops
  exact ⟨congrArg (Except.map (Expansion.links · loops)) same, after⟩

theorem degree (alike : g.Alike g') (u : Nat) (loops : Bool) :
    (g.degree u loops).1 = (g'.degree u loops).1 ∧ (g.degree u loops).2.Alike (g'.degree u loops).2 := by
  obtain ⟨same, after⟩ := alike.expanded u loops
  exact ⟨congrArg (Except.map (Expansion.degree · loops)) same, after⟩

/-- Alike graphs answer every call alike, and they stay alike. -/
theorem call (alike : g.Alike g') (c : Call) :
    (g.call c).1 = (g'.call c).1 ∧ (g.call c).2.Alike (g'.call c).2 := by
  -- a node that is named by its state has the same number in both
  have named (s : State) : ∃ u h h', g.idFor s = (u, h) ∧ g'.idFor s = (u, h') ∧ h.Alike h' := by
    obtain ⟨node, known⟩ := alike.idFor s
    exact ⟨(g.idFor s).1, (g.idFor s).2, (g'.idFor s).2, rfl, Prod.ext node.symm rfl, known⟩
  cases c with
  | outlinks s loops =>
    obtain ⟨u, h, h', found, found', known⟩ := named s
    obtain ⟨same, after⟩ := known.links u loops
    simp only [ProofGraph.call, found, found']
    exact ⟨congrArg (Except.map Reply.links) same, after⟩
  | degree s loops =>
    obtain ⟨u, h, h', found, found', known⟩ := named s
    obtain ⟨same, after⟩ := known.degree u loops
    simp only [ProofGraph.call, found, found']
    exact ⟨congrArg (Except.map Reply.degree) same, after⟩
  | idOutlinks u loops =>
    obtain ⟨same, after⟩ := alike.links u loops
    exact ⟨congrArg (Except.map Reply.links) same, after⟩
  | idDegree u loops =>
    obtain ⟨same, after⟩ := alike.degree u loops
    exact ⟨congrArg (Except.map Reply.degree) same, after⟩

end Alike

/-- New graphs of either kind fail alike or are alike. -/
theorem alike_new (labelled : LabelledExample) (program : Program) (relations : List Relation)
    (features : FeatureTable) :
    Corresponds Alike (ProofGraph.new .state labelled program relations features)
      (ProofGraph.new .cachingId labelled program relations features) := by
  unfold ProofGraph.new
  rcases (Machine.new program relations).startQuery labelled.query with ⟨e | start, m⟩
  · exact .error e
  · obtain ⟨first, holds⟩ :=
      GraphStore.holds_sparse_empty.nodeId_of_not_mem (s := start) List.not_mem_nil
    obtain ⟨first', holds'⟩ :=
      GraphStore.holds_dense_empty.nodeId_of_not_mem (s := start) List.not_mem_nil
    refine .ok ⟨?_, [start], _, holds, holds'⟩
    change ProofGraph.mk _ _ _ ((GraphStore.dense .empty).nodeId start).1 _ _ _ _ =
      ProofGraph.mk _ _ _ ((GraphStore.sparse .empty).nodeId start).1 _ _ _ _
    rw [first, first']

/-- What can be seen of two graphs is the same: their stores, the nodes that they give states, and their written
forms. -/
structure LooksLike (g g' : ProofGraph) : Prop where
  store : g.store.LooksLike g'.store
  idFor : ∀ s, (g.idFor s).1 = (g'.idFor s).1
  line : ∀ inline, g.line inline = g'.line inline

theorem Alike.looksLike {g g' : ProofGraph} (alike : g.Alike g') : g.LooksLike g' where
  store := alike.store.looksLike
  idFor s := (alike.idFor s).1
  line inline := (alike.line inline).symm

/-- The two stores cannot be told apart, and so neither can the two kinds of proof graphs. From empty stores on,
calls with any states, numbers and edges get the same replies, and what can be seen of the stores afterwards is the
same; the edges that a call would replace are always among those that the dense store has counted. Two new graphs
of one query fail alike, or they reply alike to any calls for links or for how many there are, on nodes named by
their states or by any numbers, and look alike afterwards. -/
theorem stores_interchangeable :
    (∀ calls : List GraphStore.StoreCall,
      let dense := answers GraphStore.call (.dense .empty) calls
      let sparse := answers GraphStore.call (.sparse .empty) calls
      dense.1 = sparse.1 ∧ dense.2.LooksLike sparse.2 ∧ ∀ u, (dense.2.edges u).length ≤ dense.2.edgeCount) ∧
    ∀ (labelled : LabelledExample) (program : Program) (relations : List Relation) (features : FeatureTable),
      Corresponds
        (fun g g' => ∀ calls : List Call,
          (answers call g calls).1 = (answers call g' calls).1 ∧
            (answers call g calls).2.LooksLike (answers call g' calls).2)
        (ProofGraph.new .state labelled program relations features)
        (ProofGraph.new .cachingId labelled program relations features) := by
  constructor
  · intro calls
    obtain ⟨replies, after⟩ := answers_eq (R := GraphStore.HoldsSame)
      (fun _ _ c related => related.call c) .empty calls
    have alike := after.looksLike
    obtain ⟨states, edges, holds, -⟩ := after
    exact ⟨replies, alike, holds.length_edges_le⟩
  · intro labelled program relations features
    have graphs := alike_new labelled program relations features
    generalize ProofGraph.new .state labelled program relations features = x at graphs
    generalize ProofGraph.new .cachingId labelled program relations features = y at graphs
    cases graphs with
    | error e => exact .error e
    | ok alike =>
      refine .ok fun calls => ?_
      obtain ⟨replies, after⟩ := answers_eq (R := Alike) (fun _ _ c related => related.call c) alike calls
      exact ⟨replies, after.looksLike⟩

end ProofGraph

end ProofWalk
