import Mathlib.Algebra.BigOperators.Group.Finset.Basic
import Mathlib.Algebra.BigOperators.Intervals
import Mathlib.Algebra.Order.BigOperators.Group.Finset
import ProofWalk.ProofGraph.Store

/-!
# What graph stores hold

A store, over arrays or over maps, holds states in the order of their numbers and a list of edges for
each. What it holds decides the answer to every operation and what it holds afterwards, so that stores
which hold the same cannot be told apart.

## Main definitions

* `GraphStore.Holds` — what a store holds
* `GraphStore.StoreCall`, `GraphStore.call` — what a store is called with, and what it answers
* `GraphStore.HoldsSame`, `GraphStore.LooksLike` — stores that hold the same, and what can be seen of it

## Main results

* `GraphStore.Holds.nodeId_of_not_mem`, `GraphStore.Holds.setEdges` — what it holds after an operation
* `GraphStore.Holds.line_eq` — what it holds decides its written form
* `GraphStore.HoldsSame.call` — stores that hold the same answer every call alike
-/

namespace ProofWalk

namespace GraphStore

/-- A store holds distinct states, numbered from one, and edges for them. -/
structure Holds (g : GraphStore) (states : List State) (edges : Nat → List Edge) : Prop where
  distinct : states.Nodup
  count : g.nodeCount = states.length
  state : ∀ u, g.state? u = if u = 0 then none else states[u - 1]?
  id : ∀ s u, g.idOf? s = some u ↔ g.state? u = some s
  edgesOf : ∀ u, g.edges u = edges u
  outside : ∀ u, g.state? u = none → edges u = []
  edgeCount : g.edgeCount = ∑ u ∈ Finset.Icc 1 states.length, (edges u).length
  wide : ∀ store, g = .dense store → store.edges.size = store.states.size

variable {g g' : GraphStore} {states : List State} {edges : Nat → List Edge} {s : State} {u : Nat}

theorem holds_dense_empty : (dense .empty).Holds [] fun _ => [] where
  distinct := .nil
  count := rfl
  state u := by
    change (if u = 0 then none else (#[] : Array State)[u - 1]?) = _
    rw [Array.getElem?_empty, List.getElem?_nil]
  id s u := by
    change (∅ : Std.HashMap State Nat)[s]? = some u ↔ (if u = 0 then none else #[][u - 1]?) = some s
    simp
  edgesOf u := by
    change (if u = 0 then [] else ((#[] : Array (List Edge))[u - 1]?).getD []) = []
    simp
  outside _ _ := rfl
  edgeCount := rfl
  wide store equal := by
    cases equal
    rfl

theorem holds_sparse_empty : (sparse .empty).Holds [] fun _ => [] where
  distinct := .nil
  count := rfl
  state u := by
    change (∅ : Std.HashMap Nat State)[u]? = _
    simp
  id s u := by
    change (∅ : Std.HashMap State Nat)[s]? = some u ↔ (∅ : Std.HashMap Nat State)[u]? = some s
    simp
  edgesOf u := by
    change ((∅ : Std.HashMap Nat (List Edge))[u]?).getD [] = []
    simp
  outside _ _ := rfl
  edgeCount := by
    change (∅ : Std.HashMap Nat (List Edge)).fold (fun n _ edges => n + edges.length) 0 = _
    simp [Std.HashMap.fold_eq_foldl_toList]
  wide store equal := by cases equal

namespace Holds

theorem state_succ (holds : g.Holds states edges) (i : Nat) : g.state? (i + 1) = states[i]? :=
  (holds.state (i + 1)).trans (if_neg (Nat.succ_ne_zero i))

/-- The numbers of states are those from one up to their count. -/
theorem isSome_state (holds : g.Holds states edges) :
    (g.state? u).isSome ↔ 1 ≤ u ∧ u ≤ states.length := by
  rw [holds.state]
  split
  · simp_all
  · rw [Option.isSome_iff_ne_none, ne_eq, List.getElem?_eq_none_iff]
    omega

theorem mem_of_state (holds : g.Holds states edges) (found : g.state? u = some s) : s ∈ states := by
  rw [holds.state] at found
  split at found
  · cases found
  · exact List.mem_of_getElem? found

theorem exists_id (holds : g.Holds states edges) (member : s ∈ states) : ∃ u, g.idOf? s = some u := by
  obtain ⟨i, found⟩ := List.mem_iff_getElem?.1 member
  exact ⟨i + 1, (holds.id s (i + 1)).2 ((holds.state_succ i).trans found)⟩

theorem idOf?_eq_none (holds : g.Holds states edges) : g.idOf? s = none ↔ s ∉ states := by
  constructor
  · intro none member
    obtain ⟨u, found⟩ := holds.exists_id member
    rw [none] at found
    cases found
  · intro fresh
    cases found : g.idOf? s with
    | none => rfl
    | some u => exact absurd (holds.mem_of_state ((holds.id s u).1 found)) fresh

/-- Stores that hold the same number states alike. -/
theorem idOf?_congr (holds : g.Holds states edges) (holds' : g'.Holds states edges) :
    g.idOf? s = g'.idOf? s := by
  ext u
  rw [holds.id, holds'.id, holds.state, holds'.state]

end Holds

/-! ### New states -/

/-- A state that is held keeps its number, which is not the next free one. -/
theorem Holds.nodeId_of_idOf? (holds : g.Holds states edges) (found : g.idOf? s = some u) :
    g.nodeId s = (u, g) := by
  cases g with
  | dense g =>
    change g.index[s]? = some u at found
    simp only [nodeId, DenseStore.nodeId, found]
  | sparse g =>
    have known := (holds.id s u).1 found
    have below := (holds.isSome_state (u := u)).1 (by rw [known]; rfl)
    have count : g.ids.size = states.length := holds.count
    have old : u ≠ g.ids.size + 1 := by omega
    change g.ids[s]? = some u at found
    simp only [nodeId, SparseStore.nodeId, found, if_neg old]

/-- What can be seen of a store after a state has come to it as the last one. -/
structure Appends (g : GraphStore) (s : State) (g' : GraphStore) : Prop where
  count : g'.nodeCount = g.nodeCount + 1
  state : ∀ u, g'.state? u = if u = g.nodeCount + 1 then some s else g.state? u
  id : ∀ s', g'.idOf? s' = if s = s' then some (g.nodeCount + 1) else g.idOf? s'
  edges : ∀ u, g'.edges u = g.edges u
  edgeCount : g'.edgeCount = g.edgeCount
  wide : (∀ store, g = .dense store → store.edges.size = store.states.size) →
    ∀ store, g' = .dense store → store.edges.size = store.states.size

/-- A state without a number becomes the last one. -/
theorem appends_nodeId (none : g.idOf? s = none)
    (wide : ∀ store, g = .dense store → store.edges.size = store.states.size) :
    (g.nodeId s).1 = g.nodeCount + 1 ∧ g.Appends s (g.nodeId s).2 := by
  cases g with
  | dense g =>
    change g.index[s]? = Option.none at none
    have stepped : (dense g).nodeId s = (g.states.size + 1, dense { g with
        states := g.states.push s, index := g.index.insert s (g.states.size + 1),
        edges := g.edges.push [] }) := by
      simp only [GraphStore.nodeId, DenseStore.nodeId, none]
    rw [stepped]
    refine ⟨rfl, Array.size_push _, fun u => ?_, fun s' => ?_, fun u => ?_, rfl,
      fun _ store equal => ?_⟩
    · change (if u = 0 then Option.none else (g.states.push s)[u - 1]?) =
        if u = g.states.size + 1 then some s else if u = 0 then Option.none else g.states[u - 1]?
      by_cases zero : u = 0
      · subst zero
        rfl
      · rw [if_neg zero, if_neg zero, Array.getElem?_push]
        simp only [show u - 1 = g.states.size ↔ u = g.states.size + 1 by omega]
    · change (g.index.insert s (g.states.size + 1))[s']? = if s = s' then some _ else g.index[s']?
      simp only [Std.HashMap.getElem?_insert, beq_iff_eq]
      rfl
    · change (if u = 0 then [] else ((g.edges.push [])[u - 1]?).getD []) =
        if u = 0 then [] else ((g.edges[u - 1]?).getD [])
      rw [Array.getElem?_push]
      split
      · rfl
      · split
        · rename_i isLast
          rw [isLast, Array.getElem?_eq_none le_rfl]
          rfl
        · rfl
    · cases equal
      exact (Array.size_push _).trans ((congrArg (· + 1) (wide g rfl)).trans (Array.size_push _).symm)
  | sparse g =>
    change g.ids[s]? = Option.none at none
    have stepped : (sparse g).nodeId s = (g.ids.size + 1, sparse { g with
        ids := g.ids.insert s (g.ids.size + 1), states := g.states.insert (g.ids.size + 1) s }) := by
      simp only [GraphStore.nodeId, SparseStore.nodeId, none, if_true]
    rw [stepped]
    refine ⟨rfl, ?_, fun u => ?_, fun s' => ?_, fun u => rfl, rfl, fun _ store equal => by cases equal⟩
    · change (g.ids.insert s (g.ids.size + 1)).size = g.ids.size + 1
      rw [Std.HashMap.size_insert, if_neg]
      rw [Std.HashMap.mem_iff_isSome_getElem?, none]
      exact Bool.false_ne_true
    · change (g.states.insert (g.ids.size + 1) s)[u]? = if u = g.ids.size + 1 then some s else g.states[u]?
      simp only [Std.HashMap.getElem?_insert, beq_iff_eq, eq_comm (a := u)]
    · change (g.ids.insert s (g.ids.size + 1))[s']? = if s = s' then some _ else g.ids[s']?
      simp only [Std.HashMap.getElem?_insert, beq_iff_eq]
      rfl

namespace Holds

/-- A state that is not held becomes the last one. -/
theorem nodeId_of_not_mem (holds : g.Holds states edges) (fresh : s ∉ states) :
    (g.nodeId s).1 = states.length + 1 ∧ (g.nodeId s).2.Holds (states ++ [s]) edges := by
  obtain ⟨first, appends⟩ := appends_nodeId (holds.idOf?_eq_none.2 fresh) holds.wide
  obtain ⟨count, state, id, edgesOf, edgeCount, wide⟩ := appends
  rw [holds.count] at first count state id
  have beyond : g.state? (states.length + 1) = none :=
    (holds.state_succ _).trans (List.getElem?_eq_none le_rfl)
  refine ⟨first, ?_, ?_, fun u => ?_, fun s' u => ?_, fun u => (edgesOf u).trans (holds.edgesOf u),
    fun u outside => ?_, ?_, wide holds.wide⟩
  · rw [List.nodup_append]
    refine ⟨holds.distinct, List.nodup_singleton s, fun a member b last => ?_⟩
    rw [List.mem_singleton.1 last]
    exact fun same => fresh (same ▸ member)
  · rw [count, List.length_append, List.length_singleton]
  · rw [state, holds.state]
    by_cases zero : u = 0
    · subst zero
      rfl
    · rw [if_neg zero, if_neg zero, List.getElem?_append]
      by_cases isLast : u = states.length + 1
      · rw [if_pos isLast, if_neg (by omega), isLast]
        simp
      · rw [if_neg isLast]
        split
        · rfl
        · rw [List.getElem?_eq_none (by omega), List.getElem?_eq_none (by simp; omega)]
  · rw [id, state]
    by_cases same : s = s'
    · subst same
      rw [if_pos rfl]
      by_cases isLast : u = states.length + 1
      · simp [isLast]
      · rw [if_neg isLast]
        refine ⟨fun found => absurd (Option.some.inj found).symm isLast, fun found => ?_⟩
        exact absurd (holds.mem_of_state found) fresh
    · rw [if_neg same]
      by_cases isLast : u = states.length + 1
      · rw [if_pos isLast, holds.id, isLast, beyond]
        exact ⟨fun found => (by cases found), fun found => absurd (Option.some.inj found) same⟩
      · rw [if_neg isLast, holds.id]
  · rw [state] at outside
    split at outside
    · cases outside
    · exact holds.outside u outside
  · rw [edgeCount, holds.edgeCount, List.length_append, List.length_singleton,
      Finset.sum_Icc_succ_top (Nat.succ_pos _), holds.outside _ beyond, List.length_nil, Nat.add_zero]

/-- A state comes to be held, and all others keep their numbers. -/
theorem exists_nodeId (holds : g.Holds states edges) (s : State) :
    (∃ states', (g.nodeId s).2.Holds states' edges) ∧
      (∀ u r, g.state? u = some r → (g.nodeId s).2.state? u = some r) ∧
      (g.nodeId s).2.state? (g.nodeId s).1 = some s := by
  by_cases member : s ∈ states
  · obtain ⟨u, found⟩ := holds.exists_id member
    rw [holds.nodeId_of_idOf? found]
    exact ⟨⟨states, holds⟩, fun _ _ known => known, (holds.id s u).1 found⟩
  · obtain ⟨last, holds'⟩ := holds.nodeId_of_not_mem member
    obtain ⟨first, appends⟩ := appends_nodeId (holds.idOf?_eq_none.2 member) holds.wide
    refine ⟨⟨_, holds'⟩, fun u r known => ?_, ?_⟩
    · have inside := (holds.isSome_state (u := u)).1 (by rw [known]; rfl)
      rw [appends.state, if_neg (by rw [holds.count]; omega)]
      exact known
    · rw [first, appends.state, if_pos rfl]

end Holds

/-! ### New edges -/

/-- The number of edges in a store over maps is what its nodes have together. -/
private theorem edgeCount_sparse {g : SparseStore} {n : Nat}
    (outside : ∀ u, u ∉ Finset.Icc 1 n → g.edgesOf u = []) :
    g.edgeCount = ∑ u ∈ Finset.Icc 1 n, (g.edgesOf u).length := by
  have folded : g.edgeCount = (g.edges.keys.map fun u => (g.edgesOf u).length).sum := by
    have entries : g.edges.keys.map (fun u => (g.edgesOf u).length) =
        g.edges.toList.map fun entry => entry.2.length := by
      rw [← Std.HashMap.map_fst_toList_eq_keys, List.map_map]
      refine List.map_congr_left fun entry member => ?_
      have found := Std.HashMap.mem_toList_iff_getElem?_eq_some.1 member
      rw [Function.comp_apply, SparseStore.edgesOf, found]
      rfl
    rw [entries, SparseStore.edgeCount, Std.HashMap.fold_eq_foldl_toList, List.sum_eq_foldl,
      List.foldl_map]
  rw [folded, ← List.sum_toFinset _ Std.HashMap.nodup_keys]
  refine Finset.sum_congr_of_eq_on_inter (fun u _ other => ?_) (fun u _ other => ?_) fun u _ _ => rfl
  · rw [outside u other]
    rfl
  · rw [List.mem_toFinset, Std.HashMap.mem_keys] at other
    rw [SparseStore.edgesOf, Std.HashMap.getElem?_eq_none other]
    rfl

private theorem sum_update {f : Nat → List Edge} {u n : Nat} (inside : u ∈ Finset.Icc 1 n)
    (es : List Edge) :
    ∑ v ∈ Finset.Icc 1 n, (Function.update f u es v).length =
      ∑ v ∈ Finset.Icc 1 n, (f v).length - (f u).length + es.length := by
  rw [← Finset.add_sum_erase _ _ inside, ← Finset.add_sum_erase _ (fun v => (f v).length) inside,
    Function.update_self, Finset.sum_congr rfl fun v member => by
      rw [Function.update_of_ne (Finset.ne_of_mem_erase member)]]
  omega

namespace Holds

theorem mem_Icc (holds : g.Holds states edges) (found : g.state? u = some s) :
    u ∈ Finset.Icc 1 states.length :=
  Finset.mem_Icc.2 (holds.isSome_state.1 (by rw [found]; rfl))

/-- The edges of a held state are replaced. -/
theorem setEdges (holds : g.Holds states edges) (found : g.state? u = some s) (es : List Edge) :
    (g.setEdges u es).Holds states (Function.update edges u es) := by
  have inside := holds.mem_Icc found
  obtain ⟨positive, below⟩ := Finset.mem_Icc.1 inside
  have outside : ∀ v, g.state? v = none → Function.update edges u es v = [] := by
    intro v unknown
    have other : v ≠ u := fun same => by
      rw [same, found] at unknown
      cases unknown
    rw [Function.update_of_ne other]
    exact holds.outside v unknown
  cases g with
  | dense g =>
    have wide := holds.wide g rfl
    have size : g.edges.size = states.length := wide.trans holds.count
    have stepped : (dense g).setEdges u es = dense { g with
        edges := g.edges.setIfInBounds (u - 1) es
        edgeCount := g.edgeCount - (g.edgesOf u).length + es.length } := by
      simp only [GraphStore.setEdges, DenseStore.setEdges]
      rw [if_pos ⟨positive, by omega⟩]
    rw [stepped]
    refine ⟨holds.distinct, holds.count, holds.state, holds.id, fun v => ?_, outside, ?_,
      fun store equal => ?_⟩
    · change (if v = 0 then [] else ((g.edges.setIfInBounds (u - 1) es)[v - 1]?).getD []) = _
      by_cases same : v = u
      · subst same
        rw [Function.update_self, if_neg (by omega), Array.getElem?_setIfInBounds_self_of_lt (by omega)]
        rfl
      · rw [Function.update_of_ne same, ← holds.edgesOf]
        change _ = if v = 0 then [] else (g.edges[v - 1]?).getD []
        split
        · rfl
        · rw [Array.getElem?_setIfInBounds_ne (by omega)]
    · rw [sum_update inside, ← holds.edgeCount, ← holds.edgesOf]
      rfl
    · cases equal
      exact (Array.size_setIfInBounds).trans wide
  | sparse g =>
    change g.states[u]? = some s at found
    have stepped : (sparse g).setEdges u es = sparse { g with edges := g.edges.insert u es } := by
      simp only [GraphStore.setEdges, SparseStore.setEdges]
      rw [if_pos (by
        rw [Std.HashMap.contains_iff_mem, Std.HashMap.mem_iff_isSome_getElem?, found]
        rfl)]
    have edgesOf : ∀ v, SparseStore.edgesOf { g with edges := g.edges.insert u es } v =
        Function.update edges u es v := by
      intro v
      rw [SparseStore.edgesOf, Std.HashMap.getElem?_insert]
      by_cases same : v = u
      · subst same
        rw [Function.update_self, if_pos (beq_self_eq_true v)]
        rfl
      · rw [Function.update_of_ne same, if_neg (by simpa using Ne.symm same), ← holds.edgesOf]
        rfl
    rw [stepped]
    refine ⟨holds.distinct, holds.count, holds.state, holds.id, edgesOf, outside, ?_,
      fun store equal => by cases equal⟩
    change SparseStore.edgeCount _ = _
    rw [edgeCount_sparse (n := states.length) fun v other => ?_]
    · exact Finset.sum_congr rfl fun v _ => congrArg List.length (edgesOf v)
    · rw [edgesOf]
      refine outside v ?_
      cases known : (sparse g).state? v with
      | none => rfl
      | some s' => exact absurd (holds.mem_Icc known) other

/-- The edges of an unknown node cannot be set. -/
theorem setEdges_of_unknown (holds : g.Holds states edges) (unknown : g.state? u = none)
    (es : List Edge) : g.setEdges u es = g := by
  cases g with
  | dense g =>
    have wide := holds.wide g rfl
    change (if u = 0 then none else g.states[u - 1]?) = none at unknown
    have outside : ¬(0 < u ∧ u ≤ g.edges.size) := by
      rintro ⟨positive, below⟩
      rw [if_neg (by omega), Array.getElem?_eq_none_iff] at unknown
      omega
    simp only [GraphStore.setEdges, DenseStore.setEdges, if_neg outside]
  | sparse g =>
    change g.states[u]? = none at unknown
    have outside : g.states.contains u = false := by
      rw [Std.HashMap.contains_eq_isSome_getElem?, unknown]
      rfl
    simp [GraphStore.setEdges, SparseStore.setEdges, outside]

/-- Whatever edges are set, the states stay. -/
theorem exists_setEdges (holds : g.Holds states edges) (u : Nat) (es : List Edge) :
    (∃ edges', (g.setEdges u es).Holds states edges') ∧
      ∀ v, (g.setEdges u es).state? v = g.state? v := by
  cases known : g.state? u with
  | none =>
    rw [holds.setEdges_of_unknown known es]
    exact ⟨⟨edges, holds⟩, fun _ => rfl⟩
  | some s =>
    have holds' := holds.setEdges known es
    exact ⟨⟨_, holds'⟩, fun v => (holds'.state v).trans (holds.state v).symm⟩

theorem nodes_eq (holds : g.Holds states edges) : g.nodes = (List.range states.length).map (· + 1) := by
  rw [nodes, holds.count]

/-- What a store holds decides its written form. -/
theorem line_eq (holds : g.Holds states edges) (holds' : g'.Holds states edges)
    (features : FeatureTable) (inline : Bool) : g.line features inline = g'.line features inline := by
  have nodes : g.nodes = g'.nodes := holds.nodes_eq.trans holds'.nodes_eq.symm
  have same : g.edges = g'.edges := funext fun u => (holds.edgesOf u).trans (holds'.edgesOf u).symm
  have dependencies : g.dependencies = g'.dependencies := by
    rw [GraphStore.dependencies, GraphStore.dependencies, nodes, same]
  rw [line, line, nodes, same, dependencies, holds.count, holds'.count, holds.edgeCount,
    holds'.edgeCount]

/-- The edges of a node are among those that are counted. -/
theorem length_edges_le (holds : g.Holds states edges) (u : Nat) : (g.edges u).length ≤ g.edgeCount := by
  rw [holds.edgesOf, holds.edgeCount]
  cases known : g.state? u with
  | none =>
    rw [holds.outside u known]
    exact Nat.zero_le _
  | some s =>
    exact Finset.single_le_sum (f := fun v => (edges v).length) (fun _ _ => Nat.zero_le _) (holds.mem_Icc known)

end Holds

/-! ### Stores side by side -/

/-- What a store is called with. -/
inductive StoreCall where
  | nodeId (s : State)
  | idOf (s : State)
  | state (u : Nat)
  | setEdges (u : Nat) (edges : List Edge)
  | edges (u : Nat)

/-- What a store replies to a call. -/
inductive StoreReply where
  | node (u : Nat)
  | id (u : Option Nat)
  | state (s : Option State)
  | done
  | edges (edges : List Edge)

/-- A store answers a call. -/
def call (g : GraphStore) : StoreCall → StoreReply × GraphStore
  | .nodeId s =>
    let (u, g) := g.nodeId s
    (.node u, g)
  | .idOf s => (.id (g.idOf? s), g)
  | .state u => (.state (g.state? u), g)
  | .setEdges u edges => (.done, g.setEdges u edges)
  | .edges u => (.edges (g.edges u), g)

/-- What can be seen of two stores is the same. -/
structure LooksLike (g g' : GraphStore) : Prop where
  nodeCount : g.nodeCount = g'.nodeCount
  edgeCount : g.edgeCount = g'.edgeCount
  state : ∀ u, g.state? u = g'.state? u
  id : ∀ s, g.idOf? s = g'.idOf? s
  edges : ∀ u, g.edges u = g'.edges u
  line : ∀ features inline, g.line features inline = g'.line features inline

/-- Two stores hold the same. -/
abbrev HoldsSame (g g' : GraphStore) : Prop :=
  ∃ states edges, g.Holds states edges ∧ g'.Holds states edges

namespace HoldsSame

theorem looksLike (same : g.HoldsSame g') : g.LooksLike g' := by
  obtain ⟨states, edges, holds, holds'⟩ := same
  exact {
    nodeCount := by rw [holds.count, holds'.count]
    edgeCount := by rw [holds.edgeCount, holds'.edgeCount]
    state := fun u => by rw [holds.state, holds'.state]
    id := fun s => holds.idOf?_congr holds'
    edges := fun u => by rw [holds.edgesOf, holds'.edgesOf]
    line := fun features inline => holds.line_eq holds' features inline }

theorem nodeId (same : g.HoldsSame g') (s : State) :
    (g.nodeId s).1 = (g'.nodeId s).1 ∧ (g.nodeId s).2.HoldsSame (g'.nodeId s).2 := by
  obtain ⟨states, edges, holds, holds'⟩ := same
  by_cases member : s ∈ states
  · obtain ⟨u, found⟩ := holds.exists_id member
    have found' : g'.idOf? s = some u := (holds.idOf?_congr holds').symm.trans found
    rw [holds.nodeId_of_idOf? found, holds'.nodeId_of_idOf? found']
    exact ⟨rfl, states, edges, holds, holds'⟩
  · obtain ⟨last, more⟩ := holds.nodeId_of_not_mem member
    obtain ⟨last', more'⟩ := holds'.nodeId_of_not_mem member
    exact ⟨last.trans last'.symm, _, edges, more, more'⟩

theorem setEdges (same : g.HoldsSame g') (u : Nat) (es : List Edge) :
    (g.setEdges u es).HoldsSame (g'.setEdges u es) := by
  obtain ⟨states, edges, holds, holds'⟩ := same
  have alike : g'.state? u = g.state? u := by rw [holds.state, holds'.state]
  cases known : g.state? u with
  | none =>
    rw [holds.setEdges_of_unknown known, holds'.setEdges_of_unknown (alike.trans known)]
    exact ⟨states, edges, holds, holds'⟩
  | some s =>
    exact ⟨states, _, holds.setEdges known es, holds'.setEdges (alike.trans known) es⟩

/-- Every call is answered alike, and the stores go on holding the same. -/
theorem call (same : g.HoldsSame g') (c : StoreCall) :
    (g.call c).1 = (g'.call c).1 ∧ (g.call c).2.HoldsSame (g'.call c).2 := by
  have alike := same.looksLike
  cases c with
  | nodeId s =>
    obtain ⟨node, after⟩ := same.nodeId s
    exact ⟨congrArg StoreReply.node node, after⟩
  | idOf s => exact ⟨congrArg StoreReply.id (alike.id s), same⟩
  | state u => exact ⟨congrArg StoreReply.state (alike.state u), same⟩
  | setEdges u es => exact ⟨rfl, same.setEdges u es⟩
  | edges u => exact ⟨congrArg StoreReply.edges (alike.edges u), same⟩

theorem empty : HoldsSame (dense .empty) (sparse .empty) :=
  ⟨[], _, holds_dense_empty, holds_sparse_empty⟩

end HoldsSame

end GraphStore

end ProofWalk
