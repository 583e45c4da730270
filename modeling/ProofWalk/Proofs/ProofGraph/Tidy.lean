import ProofWalk.Proofs.FeatureIndex
import ProofWalk.Proofs.Machine.Tidy
import ProofWalk.Proofs.Prover.Questions

/-!
# Features of proof graphs

A graph takes up the features of links when it records them. They are those of the machine's steps, and
the three that the graph itself gives to links. If the program, the query and the relations are tidy then
all of them are legible, and as long as there are numbers for them recording does not fail.

## Main definitions

* `ProofGraph.Tidy` — a graph with tidy states and a table without gaps

## Main results

* `ProofGraph.Tidy.expanded` — asking a node keeps a graph tidy and adds legible features
* `ProofGraph.Tidy.questioned` — so does asking any number of nodes
* `ProofGraph.tidy_new` — a new graph is tidy
-/

namespace ProofWalk

/-- The features that a graph itself gives to links are legible. -/
theorem legible_reserved {name : String}
    (reserved : name = restartFeature ∨ name = loopFeature ∨ name = startLoopFeature) : Legible name := by
  have word : Text.IsWord name := by
    rcases reserved with rfl | rfl | rfl
    · exact ⟨by simp [restartFeature], by simp [restartFeature, Text.isBlank]⟩
    · exact ⟨by simp [loopFeature], by simp [loopFeature, Text.isBlank]⟩
    · exact ⟨by simp [startLoopFeature], by simp [startLoopFeature, Text.isBlank]⟩
  exact word.legible

namespace ProofGraph

/-! ### Labels -/

section

open FeatureTable (Takes)

variable {good : String → Prop}

/-- Recording labels takes up their features. -/
theorem takes_internLabels {features : FeatureMap} (areGood : ∀ f ∈ features, good f.1) :
    Takes good features.length fun t => internLabels t features := by
  induction features with
  | nil => exact .pure []
  | cons feature rest ih =>
    obtain ⟨isGood, others⟩ := List.forall_mem_cons.1 areGood
    rw [List.length_cons, Nat.add_comm]
    refine .bind (.intern isGood) (fun n => (ih others).map ((n, feature.2) :: ·)) ?_ ?_
    · intro t n t₁ interned
      simp only [internLabels, interned]
      rcases internLabels t₁ rest with ⟨_ | labels, t₂⟩ <;> rfl
    · intro t e t₁ failed
      simp only [internLabels, failed]

/-- Recording links takes up the features of all of them. -/
theorem takes_edgesOf {links : List Link} (areGood : ∀ l ∈ links, ∀ f ∈ l.features, good f.1) :
    Takes good (featureCount links) fun t => edgesOf t links := by
  induction links with
  | nil => exact .pure []
  | cons link rest ih =>
    obtain ⟨here, others⟩ := List.forall_mem_cons.1 areGood
    have total : featureCount (link :: rest) = link.features.length + featureCount rest := List.sum_cons
    rw [total]
    refine .bind (takes_internLabels here)
      (fun labels => (ih others).map ({ target := link.child, labels } :: ·)) ?_ ?_
    · intro t labels t₁ interned
      simp only [edgesOf, interned]
      rcases edgesOf t₁ rest with ⟨_ | edges, t₂⟩ <;> rfl
    · intro t e t₁ failed
      simp only [edgesOf, failed]

/-- Whatever the features of links are, a table only grows, and by no more than their number. -/
theorem size_edgesOf (t : FeatureTable) (links : List Link) :
    t.size ≤ (edgesOf t links).2.size ∧ (edgesOf t links).2.size ≤ t.size + featureCount links := by
  have takes : Takes (fun _ => True) (featureCount links) fun t => edgesOf t links :=
    takes_edgesOf fun _ _ _ _ => trivial
  exact ⟨takes.grows t, takes.most t⟩

end

/-! ### Sizes of tables -/

variable {g g' : ProofGraph} {u : Nat} {s : State} {e : Expansion} {loops : Bool}

theorem size_record (g : ProofGraph) (u : Nat) (e : Expansion) (loops : Bool) :
    g.features.size ≤ (g.record u e loops).2.features.size ∧
      (g.record u e loops).2.features.size ≤ g.features.size + featureCount (e.links loops) := by
  have size := size_edgesOf g.features (e.links loops)
  unfold record
  split
  · rcases recorded : edgesOf g.features (e.links loops) with ⟨_ | edges, t⟩ <;>
    · rw [recorded] at size
      exact size
  · exact ⟨le_rfl, Nat.le_add_right _ _⟩

/-- Recording does not change the links. -/
theorem record_links {e' : Expansion} (done : g.record u e loops = (.ok e', g')) :
    e'.links loops = e.links loops := by
  unfold record at done
  split at done
  · split at done
    · cases done
    · cases done
      rfl
  · cases done
    rfl

theorem expand_features (g : ProofGraph) (u : Nat) (s : State) :
    (g.expand u s).2.features = g.features := by
  unfold expand
  split
  · rfl
  · exact (g.linksTo_features _).1

/-- Asking a node for its links only adds names, and no more than there are features on them. -/
theorem size_le_expanded (g : ProofGraph) (u : Nat) (loops : Bool) :
    g.features.size ≤ (g.expanded u loops).2.features.size := by
  rcases g.expanded_cases u loops with ⟨err, failed⟩ | ⟨e, -, asked⟩ | ⟨s, e, g₁, -, -, expands, asked⟩
  · rw [failed]
  · rw [asked]
    exact (g.size_record u e loops).1
  · have same := g.expand_features u s
    rw [expands] at same
    rw [asked, ← same]
    exact (size_record { g₁ with expansions := g₁.expansions.insert u e } u e loops).1

theorem size_expanded_le (done : g.expanded u loops = (.ok e, g')) :
    g'.features.size ≤ g.features.size + featureCount (e.links loops) := by
  have recorded (g₀ : ProofGraph) (e₀ : Expansion) (same : g₀.features = g.features)
      (asked : g₀.record u e₀ loops = (.ok e, g')) :
      g'.features.size ≤ g.features.size + featureCount (e.links loops) := by
    have size := (g₀.size_record u e₀ loops).2
    rw [asked, same, ← record_links asked] at size
    exact size
  rcases g.expanded_cases u loops with ⟨err, failed⟩ | ⟨e₀, -, asked⟩ | ⟨s, e₀, g₁, -, -, expands, asked⟩
  · rw [failed] at done
    cases done
  · exact recorded g e₀ rfl (asked.symm.trans done)
  · have same := g.expand_features u s
    rw [expands] at same
    exact recorded { g₁ with expansions := g₁.expansions.insert u e₀ } e₀ same (asked.symm.trans done)

theorem Questioned.size_le (asked : g.Questioned g') : g.features.size ≤ g'.features.size := by
  induction asked with
  | refl => exact le_rfl
  | tail _ step ih =>
    obtain ⟨u, loops, rfl⟩ := step
    exact ih.trans (size_le_expanded _ u loops)

/-! ### Tidy graphs -/

/-- The parts of a graph fit together, its code and its states are tidy, and its table lists names. -/
structure Tidy (g : ProofGraph) (names : List String) : Prop where
  coherent : g.Coherent
  code : g.code.Tidy
  states : ∀ u s, g.store.state? u = some s → s.Tidy
  lists : g.features.Lists names

namespace Tidy

variable {names : List String}

/-- The machine's steps from a node are legible and lead to tidy states. -/
theorem steps (tidy : g.Tidy names) (known : g.store.state? u = some s) {steps : List Outlink}
    (made : g.steps s = .ok steps) : ∀ o ∈ steps, o.child.Tidy ∧ LegibleMap o.features := by
  unfold ProofGraph.steps at made
  split at made
  · cases made
    exact fun o member => by cases member
  · exact tidy.code.of_outlinks (tidy.states u s known) made

/-- The links of an expansion carry legible features. -/
theorem legible_links (tidy : g.Tidy names) (known : g.expansions[u]? = some e) :
    ∀ l ∈ e.links loops, LegibleMap l.features := by
  obtain ⟨s, shows⟩ := tidy.coherent.shows u e known
  have single {name : String} (reserved : name = restartFeature ∨ name = loopFeature ∨
      name = startLoopFeature) : LegibleMap (.single name 1) :=
    List.forall_mem_singleton.2 (legible_reserved reserved)
  intro l member
  rcases List.mem_append.1 member with loop | base
  · split at loop
    · rw [shows.loop] at loop
      split at loop
      · rw [Option.toList_some, List.mem_singleton] at loop
        rw [loop]
        refine single ?_
        split
        · exact .inr (.inr rfl)
        · exact .inr (.inl rfl)
      · cases loop
    · cases loop
  · obtain ⟨steps, links, made, isBase, stand⟩ := shows.base
    rw [isBase] at base
    rcases List.mem_append.1 base with step | restart
    · obtain ⟨o, isStep, -, features⟩ := exists_of_forall₂ stand step
      rw [features]
      exact (tidy.steps shows.state made o isStep).2
    · rw [List.mem_singleton.1 restart]
      exact single (.inl rfl)

/-- A tidy state comes to stand at a node. -/
theorem classNode (tidy : g.Tidy names) (alive : s.failed = false) (isTidy : s.Tidy) :
    (g.classNode s).2.Tidy names := by
  obtain ⟨coherent, more, -⟩ := tidy.coherent.classNode alive
  refine ⟨coherent, more.code ▸ tidy.code, fun v s' known => ?_, g.classNode_features s ▸ tidy.lists⟩
  obtain before | ⟨-, rfl⟩ := tidy.coherent.state_of_classNode alive known
  · exact tidy.states v s' before
  · exact isTidy

theorem linksTo (tidy : g.Tidy names) {steps : List Outlink}
    (areTidy : ∀ o ∈ steps, o.child.failed = false ∧ o.child.Tidy) : (g.linksTo steps).2.Tidy names := by
  induction steps generalizing g with
  | nil => exact tidy
  | cons o rest ih =>
    obtain ⟨⟨alive, isTidy⟩, others⟩ := List.forall_mem_cons.1 areTidy
    exact ih (tidy.classNode alive isTidy) others

/-- A node that is expanded brings its successors. -/
theorem expand (tidy : g.Tidy names) (known : g.store.state? u = some s)
    (done : g.expand u s = (.ok e, g')) : g'.Tidy names := by
  have isLinked := done
  unfold ProofGraph.expand at isLinked
  split at isLinked
  · cases isLinked
  rename_i steps made
  have areTidy : ∀ o ∈ steps, o.child.failed = false ∧ o.child.Tidy := fun o member =>
    ⟨alive_of_steps made o member, (tidy.steps known made o member).1⟩
  cases isLinked
  exact tidy.linksTo areTidy

/-- Recording links adds legible features. -/
theorem record (tidy : g.Tidy names) (known : g.expansions[u]? = some e)
    (few : (g.record u e loops).2.features.size + 1 < Numbers.limit) :
    ∃ more, (g.record u e loops).2.Tidy (names ++ more) ∧ g.Extends (g.record u e loops).2 ∧
      ∀ n ∈ more, Legible n := by
  by_cases stale : e.isStale loops = true
  · have areLegible : ∀ l ∈ e.links loops, LegibleMap l.features := tidy.legible_links known
    have takes := takes_edgesOf areLegible
    rcases recorded : edgesOf g.features (e.links loops) with ⟨r, t⟩
    have table : (g.record u e loops).2.features = t := by
      unfold ProofGraph.record
      rw [if_pos stale, recorded]
      cases r <;> rfl
    obtain ⟨edges, more, isOk, lists, legible⟩ :=
      takes.lists g.features names tidy.lists (by rwa [recorded, ← table])
    simp only [recorded] at isOk lists
    have done : g.record u e loops = (.ok { e with recorded := some loops }, { g with
        features := t
        store := g.store.setEdges u edges
        expansions := g.expansions.insert u { e with recorded := some loops } }) := by
      unfold ProofGraph.record
      rw [if_pos stale, recorded, isOk]
    obtain ⟨coherent, extends_, -⟩ := tidy.coherent.record known done
    rw [done]
    refine ⟨more, ⟨coherent, tidy.code, fun v s' known' => ?_, lists⟩, extends_, legible⟩
    rw [tidy.coherent.state?_setEdges u edges v] at known'
    exact tidy.states v s' known'
  · have unchanged : g.record u e loops = (.ok e, g) := by
      unfold ProofGraph.record
      rw [if_neg stale]
    rw [unchanged]
    exact ⟨[], by rwa [List.append_nil], .refl g, fun _ member => by cases member⟩

/-- Asking a node for its links adds legible features, whether it gives them or not. -/
theorem expanded (tidy : g.Tidy names)
    (few : (g.expanded u loops).2.features.size + 1 < Numbers.limit) :
    ∃ more, (g.expanded u loops).2.Tidy (names ++ more) ∧ g.Extends (g.expanded u loops).2 ∧
      ∀ n ∈ more, Legible n := by
  rcases g.expanded_cases u loops with ⟨err, failed⟩ | ⟨e, found, asked⟩ |
    ⟨s, e, g₁, found, known, expands, asked⟩
  · rw [failed]
    exact ⟨[], by rwa [List.append_nil], .refl g, fun _ member => by cases member⟩
  · rw [asked] at few ⊢
    exact tidy.record found few
  · obtain ⟨coherent₁, more₁, shows, unrecorded, expansions⟩ := tidy.coherent.expand known expands
    have tidy₁ := tidy.expand known expands
    obtain ⟨coherent₂, more₂⟩ := coherent₁.insert shows (expansions ▸ found) unrecorded
    have tidy₂ : ({ g₁ with expansions := g₁.expansions.insert u e } : ProofGraph).Tidy names :=
      ⟨coherent₂, tidy₁.code, tidy₁.states, tidy₁.lists⟩
    rw [asked] at few ⊢
    obtain ⟨more, tidy', more', legible⟩ := tidy₂.record Std.HashMap.getElem?_insert_self few
    exact ⟨more, tidy', (more₁.trans more₂).trans more', legible⟩

/-- A graph that has been asked any number of nodes is tidy if there are numbers for all features. -/
theorem questioned (tidy : g.Tidy names) (asked : g.Questioned g')
    (few : g'.features.size + 1 < Numbers.limit) :
    ∃ more, g'.Tidy (names ++ more) ∧ g.Extends g' ∧ ∀ n ∈ more, Legible n := by
  induction asked with
  | refl => exact ⟨[], by rwa [List.append_nil], .refl g, fun _ member => by cases member⟩
  | @tail g₁ g₂ _ step ih =>
    obtain ⟨u, loops, rfl⟩ := step
    have grows := g₁.size_le_expanded u loops
    obtain ⟨more₁, tidy₁, extends₁, legible₁⟩ := ih (by omega)
    obtain ⟨more₂, tidy₂, extends₂, legible₂⟩ := tidy₁.expanded few
    refine ⟨more₁ ++ more₂, ?_, extends₁.trans extends₂, List.forall_mem_append.2 ⟨legible₁, legible₂⟩⟩
    rw [← List.append_assoc]
    exact tidy₂

end Tidy

theorem features_new {kind : GraphKind} {labelled : LabelledExample} {program : Program}
    {relations : List Relation} {features : FeatureTable}
    (made : ProofGraph.new kind labelled program relations features = .ok g) : g.features = features := by
  unfold ProofGraph.new at made
  split at made
  · cases made
  · cases made
    rfl

/-- A new graph is tidy if its program, its relations and its query are. -/
theorem tidy_new {kind : GraphKind} {labelled : LabelledExample} {program : Program}
    {relations : List Relation} {features : FeatureTable} {names : List String}
    (isProgram : TidyCode program.code.toList) (answers : ∀ r ∈ relations, r.Tidy)
    (isQuery : labelled.query.Tidy) (lists : features.Lists names)
    (made : ProofGraph.new kind labelled program relations features = .ok g) : g.Tidy names := by
  obtain ⟨coherent, -, -, table, count⟩ := coherent_new lists.lawful made
  have start : g.code.Tidy ∧ g.start.Tidy := by
    unfold ProofGraph.new at made
    split at made
    · cases made
    · rename_i start m started
      cases made
      exact Machine.tidy_of_startQuery isProgram answers isQuery started
  refine ⟨coherent, start.1, fun u s known => ?_, table ▸ lists⟩
  obtain ⟨-, rfl⟩ := coherent.eq_start count known
  exact start.2

end ProofGraph

end ProofWalk
