import Mathlib.Logic.Relation
import ProofWalk.Proofs.ProofGraph.Calls

/-!
# Graphs that unfold

Whatever is asked of a proof graph, also when it fails or feature numbers run out, its nodes stay and all its
links lead to nodes. Links that a node has given are given again, and nothing changes then.

## Main definitions

* `ProofGraph.Unfolded` — what a graph becomes as it gives links in one form
* `ProofGraph.Rooted` — a graph whose links lead to its nodes

## Main results

* `ProofGraph.Rooted.answers` — graphs stay rooted whatever they are asked
* `ProofGraph.links_of_unfolded` — links go on being given
-/

namespace ProofWalk

namespace ProofGraph

/-- What a graph becomes as it gives links, all with loops or all without. -/
def Unfolded (loops : Bool) : ProofGraph → ProofGraph → Prop :=
  Relation.ReflTransGen fun g g' => ∃ u e, g.expanded u loops = (.ok e, g')

/-- The store of a graph holds its nodes, and the start and all that links lead to are among them. -/
structure Rooted (g : ProofGraph) : Prop where
  holds : ∃ states edges, g.store.Holds states edges
  start : (g.store.state? g.startId).isSome
  children : ∀ (u : Nat) (e : Expansion), g.expansions[u]? = some e →
    ∀ l ∈ e.links true, (g.store.state? l.child).isSome

/-- A graph keeps the start of another one, and its nodes with their states. -/
structure KeepsNodes (g g' : ProofGraph) : Prop where
  startId : g'.startId = g.startId
  state : ∀ u s, g.store.state? u = some s → g'.store.state? u = some s

variable {g g' g'' : ProofGraph} {u : Nat} {s : State} {e : Expansion} {loops : Bool} {links : List Link}

namespace KeepsNodes

theorem refl (g : ProofGraph) : g.KeepsNodes g := ⟨rfl, fun _ _ known => known⟩

theorem trans (first : g.KeepsNodes g') (second : g'.KeepsNodes g'') : g.KeepsNodes g'' :=
  ⟨second.startId.trans first.startId, fun u s known => second.state u s (first.state u s known)⟩

theorem isSome (keeps : g.KeepsNodes g') (known : (g.store.state? u).isSome) :
    (g'.store.state? u).isSome := by
  obtain ⟨s, isState⟩ := Option.isSome_iff_exists.1 known
  rw [keeps.state u s isState]
  rfl

end KeepsNodes

theorem isCompleted_of_state (known : g.store.state? u = some s) : g.isCompleted u = s.completed := by
  rw [isCompleted, known]

namespace Rooted

/-- A graph that has grown by nodes only. -/
theorem of_nodes (rooted : g.Rooted) (keeps : g.KeepsNodes g') (expansions : g'.expansions = g.expansions)
    (holds : ∃ states edges, g'.store.Holds states edges) : g'.Rooted where
  holds := holds
  start := keeps.startId ▸ keeps.isSome rooted.start
  children u e known l member :=
    keeps.isSome (rooted.children u e (expansions ▸ known) l member)

theorem classNode (rooted : g.Rooted) (s : State) :
    (g.classNode s).2.Rooted ∧ g.KeepsNodes (g.classNode s).2 ∧
      ((g.classNode s).2.store.state? (g.classNode s).1).isSome := by
  -- the representative of the class gets a node
  obtain ⟨r, node, store⟩ : ∃ r, (g.classNode s).1 = (g.store.nodeId r).1 ∧
      (g.classNode s).2.store = (g.store.nodeId r).2 := by
    unfold ProofGraph.classNode representative
    simp only
    split
    · exact ⟨_, rfl, rfl⟩
    · exact ⟨_, rfl, rfl⟩
  obtain ⟨expansions, startId⟩ := g.classNode_expansions s
  obtain ⟨states, edges, holds⟩ := rooted.holds
  obtain ⟨⟨states', holds'⟩, others, isState⟩ := holds.exists_nodeId r
  have keeps : g.KeepsNodes (g.classNode s).2 := ⟨startId, fun u s' known => store ▸ others u s' known⟩
  refine ⟨rooted.of_nodes keeps expansions ⟨states', edges, store ▸ holds'⟩, keeps, ?_⟩
  rw [node, store, isState]
  rfl

theorem linksTo (rooted : g.Rooted) (steps : List Outlink) :
    (g.linksTo steps).2.Rooted ∧ g.KeepsNodes (g.linksTo steps).2 ∧
      ∀ l ∈ (g.linksTo steps).1, ((g.linksTo steps).2.store.state? l.child).isSome := by
  induction steps generalizing g with
  | nil => exact ⟨rooted, .refl g, fun l member => by cases member⟩
  | cons o rest ih =>
    obtain ⟨rooted₁, keeps₁, first⟩ := rooted.classNode o.child
    obtain ⟨rooted', keeps', others⟩ := ih rooted₁
    refine ⟨rooted', keeps₁.trans keeps', fun l member => ?_⟩
    rcases List.mem_cons.1 member with rfl | member
    · exact keeps'.isSome first
    · exact others l member

theorem expand (rooted : g.Rooted) (known : g.store.state? u = some s) (done : g.expand u s = (.ok e, g')) :
    g'.Rooted ∧ g.KeepsNodes g' ∧ ∀ l ∈ e.links true, (g'.store.state? l.child).isSome := by
  unfold ProofGraph.expand at done
  split at done
  · cases done
  rename_i steps _
  obtain ⟨rooted', keeps, children⟩ := rooted.linksTo steps
  cases done
  -- a link is the loop, a step, or the one back to the start
  refine ⟨rooted', keeps, fun l member => ?_⟩
  rcases List.mem_append.1 member with loop | base
  · rw [if_pos rfl] at loop
    dsimp only at loop
    split at loop
    · rw [List.mem_singleton.1 loop, keeps.state u s known]
      rfl
    · cases loop
  · rcases List.mem_append.1 base with step | restart
    · exact children l step
    · split at restart
      · cases restart
      · rw [List.mem_singleton.1 restart]
        exact rooted'.start

/-- However recording ends, the nodes stay. -/
theorem record (rooted : g.Rooted) (u : Nat) (loops : Bool)
    (children : ∀ l ∈ e.links true, (g.store.state? l.child).isSome) :
    (g.record u e loops).2.Rooted ∧ g.KeepsNodes (g.record u e loops).2 := by
  obtain ⟨states, edges, holds⟩ := rooted.holds
  unfold ProofGraph.record
  split
  · split
    · exact ⟨⟨rooted.holds, rooted.start, rooted.children⟩, rfl, fun _ _ known => known⟩
    · rename_i recorded _ _
      obtain ⟨⟨edges', holds'⟩, state⟩ := holds.exists_setEdges u recorded
      refine ⟨⟨⟨states, edges', holds'⟩, ?_, fun v e' known l member => ?_⟩, rfl,
        fun v s known => (state v).trans known⟩
      · change ((g.store.setEdges u recorded).state? g.startId).isSome
        rw [state]
        exact rooted.start
      · change ((g.store.setEdges u recorded).state? l.child).isSome
        rw [state]
        change (g.expansions.insert u _)[v]? = some e' at known
        rw [Std.HashMap.getElem?_insert] at known
        split at known
        · cases known
          exact children l member
        · exact rooted.children v e' known l member
  · exact ⟨rooted, .refl g⟩

/-- Whatever is asked of a graph, its links lead to its nodes. -/
theorem expanded (rooted : g.Rooted) (u : Nat) (loops : Bool) :
    (g.expanded u loops).2.Rooted ∧ g.KeepsNodes (g.expanded u loops).2 := by
  rcases g.expanded_cases u loops with ⟨err, failed⟩ | ⟨e, found, asked⟩ |
    ⟨s, e, g₁, found, known, expand, asked⟩
  · rw [failed]
    exact ⟨rooted, .refl g⟩
  · rw [asked]
    exact rooted.record u loops (rooted.children u e found)
  · rw [asked]
    obtain ⟨rooted₁, keeps₁, children⟩ := rooted.expand known expand
    have inserted : ({ g₁ with expansions := g₁.expansions.insert u e } : ProofGraph).Rooted := by
      refine ⟨rooted₁.holds, rooted₁.start, fun v e' known' l member => ?_⟩
      change (g₁.expansions.insert u e)[v]? = some e' at known'
      rw [Std.HashMap.getElem?_insert] at known'
      split at known'
      · cases known'
        exact children l member
      · exact rooted₁.children v e' known' l member
    obtain ⟨rooted', keeps'⟩ := inserted.record u loops children
    exact ⟨rooted', keeps₁.trans ⟨keeps'.startId, keeps'.state⟩⟩

theorem call (rooted : g.Rooted) (c : Call) : (g.call c).2.Rooted := by
  have named (s : State) : (g.idFor s).2.Rooted := by
    unfold idFor
    split
    · exact rooted
    · exact (rooted.classNode s).1
  cases c with
  | outlinks s loops | degree s loops => exact ((named s).expanded _ loops).1
  | idOutlinks u loops | idDegree u loops => exact (rooted.expanded u loops).1

/-- So they do after any calls. -/
theorem answers (rooted : g.Rooted) (calls : List Call) : (answers ProofGraph.call g calls).2.Rooted := by
  induction calls generalizing g with
  | nil => exact rooted
  | cons c rest ih => exact ih (rooted.call c)

theorem unfolded (rooted : g.Rooted) (unfolded : g.Unfolded loops g') : g'.Rooted ∧ g.KeepsNodes g' := by
  induction unfolded with
  | refl => exact ⟨rooted, .refl g⟩
  | tail _ step ih =>
    obtain ⟨rooted', keeps⟩ := ih
    obtain ⟨u, e, done⟩ := step
    have next := rooted'.expanded u loops
    rw [done] at next
    exact ⟨next.1, keeps.trans next.2⟩

end Rooted

/-- The start is the only node of a new graph. -/
theorem rooted_new {kind : GraphKind} {labelled : LabelledExample} {program : Program}
    {relations : List Relation} {features : FeatureTable}
    (made : ProofGraph.new kind labelled program relations features = .ok g) : g.Rooted := by
  unfold ProofGraph.new at made
  split at made
  · cases made
  rename_i start m _
  obtain ⟨edges, holds⟩ : ∃ edges, (emptyStore kind).Holds [] edges := by
    cases kind
    · exact ⟨_, GraphStore.holds_sparse_empty⟩
    · exact ⟨_, GraphStore.holds_dense_empty⟩
  obtain ⟨⟨states, holds'⟩, -, isState⟩ := holds.exists_nodeId start
  cases made
  refine ⟨⟨states, edges, holds'⟩, ?_, fun u e known => ?_⟩
  · exact Option.isSome_iff_exists.2 ⟨start, isState⟩
  · change (∅ : Std.HashMap Nat Expansion)[u]? = some e at known
    rw [Std.HashMap.getElem?_empty] at known
    cases known

/-! ### Links again -/

theorem links_eq_ok : g.links u loops = (.ok links, g') ↔
    ∃ e, g.expanded u loops = (.ok e, g') ∧ e.links loops = links := by
  unfold ProofGraph.links
  rcases g.expanded u loops with ⟨err | e, g₁⟩
  · constructor
    · intro failed
      cases failed
    · rintro ⟨e, failed, -⟩
      cases failed
  · constructor
    · intro done
      cases done
      exact ⟨e, rfl, rfl⟩
    · rintro ⟨e', done, rfl⟩
      cases done
      rfl

/-- Links that have been given are given again. -/
theorem links_again (done : g.expanded u loops = (.ok e, g')) :
    g'.links u loops = (.ok (e.links loops), g') := by
  obtain ⟨known, current, -⟩ := expanded_current done
  exact links_eq_ok.2 ⟨e, expanded_again known current, rfl⟩

/-- Links that are given without a change go on being given as others are asked for. -/
theorem links_of_unfolded (given : g.links u loops = (.ok links, g)) (unfolded : g.Unfolded loops g') :
    g'.links u loops = (.ok links, g') := by
  induction unfolded with
  | refl => exact given
  | tail _ step ih =>
    obtain ⟨v, e', done⟩ := step
    obtain ⟨e, again, rfl⟩ := links_eq_ok.1 ih
    -- to ask the same node again changes nothing, and another one leaves its expansion as it is
    by_cases same : v = u
    · rw [same, again] at done
      cases done
      exact ih
    · obtain ⟨known, current, -⟩ := expanded_current again
      have kept := (expanded_current done).2.2 u (Ne.symm same)
      exact links_eq_ok.2 ⟨e, expanded_again (kept.trans known) current, rfl⟩

theorem Rooted.isSome_child (rooted : g.Rooted) (given : g.links u loops = (.ok links, g)) {l : Link}
    (member : l ∈ links) : (g.store.state? l.child).isSome := by
  obtain ⟨e, again, rfl⟩ := links_eq_ok.1 given
  exact rooted.children u e (expanded_current again).1 l (e.links_subset loops member)

end ProofGraph

end ProofWalk
