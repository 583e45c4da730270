import ProofWalk.Proofs.ProofGraph.Recorded

/-!
# Calls on a proof graph

A proof graph is asked for the links of its nodes, or for how many there are, in any order, with loops and
without, and some of the calls fail. What it holds afterwards is decided by the calls: a node has edges
once it has given links, its loop is among them once loops were asked for, and a call that fails leaves no
trace.

## Main definitions

* `Call`, `ProofGraph.call` — what a graph is asked, and what it answers
* `ProofGraph.Past` — the calls that made one graph of another, with how they went
* `ProofGraph.Remembers` — the invariant: what the expansions of a graph tell of its past
* `ProofGraph.Recounts` — what can be seen of a graph with a past

## Main results

* `ProofGraph.Past.remembers` — the invariant holds of a new graph and is kept by every call
* `ProofGraph.calls_recount` — what a graph holds after any calls
-/

namespace ProofWalk

/-- A node, named by its state or by its number, is asked for its links or for how many there are. -/
inductive Call where
  | outlinks (s : State) (loops : Bool)
  | degree (s : State) (loops : Bool)
  | idOutlinks (u : Nat) (loops : Bool)
  | idDegree (u : Nat) (loops : Bool)

/-- What a graph replies to a call. -/
inductive Reply where
  | links (links : List Link)
  | degree (count : Nat)

/-- A call that has been made: the node, whether loops were asked for, and whether it succeeded. -/
structure Asking where
  node : Nat
  loops : Bool
  given : Bool

/-- Some call on a node has been answered. -/
def Gave (past : List Asking) (u : Nat) : Prop := ∃ x ∈ past, x.node = u ∧ x.given = true

/-- Some call on a node has asked for loops. -/
def AskedLoops (past : List Asking) (u : Nat) : Prop := ∃ x ∈ past, x.node = u ∧ x.loops = true

theorem gave_append_singleton {past : List Asking} {x : Asking} {u : Nat} :
    Gave (past ++ [x]) u ↔ Gave past u ∨ x.node = u ∧ x.given = true := by
  unfold Gave
  simp only [List.mem_append, List.mem_singleton, or_and_right, exists_or, exists_eq_left]

theorem askedLoops_append_singleton {past : List Asking} {x : Asking} {u : Nat} :
    AskedLoops (past ++ [x]) u ↔ AskedLoops past u ∨ x.node = u ∧ x.loops = true := by
  unfold AskedLoops
  simp only [List.mem_append, List.mem_singleton, or_and_right, exists_or, exists_eq_left]

/-- The answer to a call that only counts. -/
def Reply.counted : Reply → Reply
  | .links shown => .degree shown.length
  | .degree count => .degree count

namespace Call

/-- Whether loops are asked for. -/
def loops : Call → Bool
  | outlinks _ loops | degree _ loops | idOutlinks _ loops | idDegree _ loops => loops

/-- The call is on a node of the graph. -/
def On (c : Call) (g : ProofGraph) (u : Nat) : Prop :=
  match c with
  | outlinks s _ | degree s _ => g.store.state? u = some s
  | idOutlinks v _ | idDegree v _ => v = u ∧ 1 ≤ u ∧ u ≤ g.store.nodeCount

/-- What is read off the expansion of the node. -/
def read : Call → Expansion → Reply
  | outlinks _ loops, e | idOutlinks _ loops, e => .links (e.links loops)
  | degree _ loops, e | idDegree _ loops, e => .degree (e.degree loops)

end Call

namespace ProofGraph

/-- A graph answers a call. -/
def call (g : ProofGraph) : Call → Except Error Reply × ProofGraph
  | .outlinks s loops =>
    let (u, g) := g.idFor s
    let (r, g) := g.links u loops
    (r.map .links, g)
  | .degree s loops =>
    let (u, g) := g.idFor s
    let (r, g) := g.degree u loops
    (r.map .degree, g)
  | .idOutlinks u loops =>
    let (r, g) := g.links u loops
    (r.map .links, g)
  | .idDegree u loops =>
    let (r, g) := g.degree u loops
    (r.map .degree, g)

/-- One graph has become another by calls on its nodes, while feature numbers lasted. -/
inductive Past (g₀ : ProofGraph) : List Asking → ProofGraph → Prop
  | none : Past g₀ [] g₀
  | call {past : List Asking} {g : ProofGraph} {c : Call} {u : Nat} (before : Past g₀ past g)
      (on : c.On g u) (numbered : (g.call c).1 ≠ .error .featuresExhausted) :
      Past g₀ (past ++ [{ node := u, loops := c.loops, given := (g.call c).1.isOk }]) (g.call c).2

variable {g₀ g g' : ProofGraph} {past : List Asking} {u : Nat} {s : State} {e e' : Expansion}
  {loops : Bool}

/-! ### Expansions -/

theorem internLabels_error {t t' : FeatureTable} {features : FeatureMap} {err : Error}
    (failed : internLabels t features = (.error err, t')) : err = .featuresExhausted := by
  induction features generalizing t with
  | nil => cases failed
  | cons feature rest ih =>
    unfold internLabels at failed
    split at failed
    · rename_i first
      cases failed
      unfold FeatureTable.intern at first
      split at first
      · cases first
      · unfold Numbers.take at first
        split_ifs at first
        · cases first
          rfl
        · cases first
    · split at failed
      · cases failed
      · rename_i behind
        cases failed
        exact ih behind

/-- Links cannot be recorded only where the numbers of features have run out. -/
theorem edgesOf_error {t t' : FeatureTable} {links : List Link} {err : Error}
    (failed : edgesOf t links = (.error err, t')) : err = .featuresExhausted := by
  induction links generalizing t with
  | nil => cases failed
  | cons link rest ih =>
    unfold edgesOf at failed
    split at failed
    · rename_i first
      cases failed
      exact internLabels_error first
    · split at failed
      · cases failed
      · rename_i behind
        cases failed
        exact ih behind

theorem record_error {err : Error} (failed : g.record u e loops = (.error err, g')) :
    err = .featuresExhausted := by
  unfold record at failed
  split at failed
  · split at failed
    · rename_i exhausted
      cases failed
      exact edgesOf_error exhausted
    · cases failed
  · cases failed

/-- Recording keeps the links, and remembers the form that has been recorded. -/
theorem record_form (done : g.record u e loops = (.ok e', g')) :
    e'.loop = e.loop ∧ e'.recorded = if e.isStale loops then some loops else e.recorded := by
  unfold record at done
  split at done
  · rename_i stale
    split at done
    · cases done
    · cases done
      rw [if_pos stale]
      exact ⟨rfl, rfl⟩
  · rename_i current
    cases done
    rw [if_neg current]
    exact ⟨rfl, rfl⟩

/-- While numbers last, links fail to be given only where the machine fails, and nothing changes then. -/
theorem expanded_error {err : Error} (known : g.store.state? u = some s)
    (failed : g.expanded u loops = (.error err, g')) (numbered : err ≠ .featuresExhausted) :
    g' = g ∧ g.expansions[u]? = none ∧ g.steps s = .error err := by
  unfold expanded at failed
  cases found : g.expansions[u]? with
  | some e =>
    rw [found] at failed
    exact absurd (record_error failed) numbered
  | none =>
    simp only [found, known] at failed
    split at failed
    · rename_i err' g₁ unexpanded
      cases failed
      unfold expand at unexpanded
      split at unexpanded
      · rename_i stuck
        cases unexpanded
        exact ⟨rfl, rfl, stuck⟩
      · cases unexpanded
    · exact absurd (record_error failed) numbered

/-- The first time that links are given, their form is the one that was asked for. -/
theorem Coherent.form_of_fresh (coherent : g.Coherent) (fresh : g.expansions[u]? = none)
    (done : g.expanded u loops = (.ok e, g')) : e.recorded = some loops := by
  unfold ProofGraph.expanded at done
  simp only [fresh] at done
  split at done
  · cases done
  rename_i s known
  split at done
  · cases done
  rename_i e₁ g₁ expands
  obtain ⟨-, -, -, unrecorded, -⟩ := coherent.expand known expands
  have form := (record_form done).2
  have stale : e₁.isStale loops = true := by rw [Expansion.isStale, unrecorded]
  rw [form, if_pos stale]

/-- Later the form changes only from one without the loop to one with it. -/
theorem form_of_known (found : g.expansions[u]? = some e) (done : g.expanded u loops = (.ok e', g')) :
    e'.loop = e.loop ∧ e'.recorded = if e.isStale loops then some loops else e.recorded := by
  unfold expanded at done
  rw [found] at done
  exact record_form done

/-! ### Calls -/

/-- A call on a node asks for the expansion of that node, and reads its answer off it. -/
theorem Coherent.call_eq (coherent : g.Coherent) {c : Call} (on : c.On g u) :
    g.call c = ((g.expanded u c.loops).1.map c.read, (g.expanded u c.loops).2) := by
  obtain ⟨states, holds⟩ := coherent.holds
  have named (s : State) (known : g.store.state? u = some s) : g.idFor s = (u, g) := by
    rw [idFor, (holds.id s u).2 known]
  have mapped (α : Type) (f : Expansion → α) (h : α → Reply) (r : Except Error Expansion) :
      (r.map f).map h = r.map fun e => h (f e) := by
    cases r <;> rfl
  cases c with
  | outlinks s loops =>
    rw [call, named s on]
    exact Prod.ext (mapped _ _ _ _) rfl
  | degree s loops =>
    rw [call, named s on]
    exact Prod.ext (mapped _ _ _ _) rfl
  | idOutlinks v loops =>
    obtain ⟨rfl, -⟩ := on
    exact Prod.ext (mapped _ _ _ _) rfl
  | idDegree v loops =>
    obtain ⟨rfl, -⟩ := on
    exact Prod.ext (mapped _ _ _ _) rfl

theorem Coherent.state_of_on (coherent : g.Coherent) {c : Call} (on : c.On g u) :
    ∃ s, g.store.state? u = some s := by
  cases c with
  | outlinks s _ | degree s _ => exact ⟨s, on⟩
  | idOutlinks _ _ | idDegree _ _ => exact coherent.exists_state on.2

/-! ### What a graph remembers -/

/-- What the expansions of a graph tell of the calls that have been made: a node has been expanded if it
has given links, the loop of a completed state is recorded if loops were asked for, and a completed state
has never failed to give links. -/
structure Remembers (g : ProofGraph) (past : List Asking) : Prop where
  coherent : g.Coherent
  given : ∀ u, (g.expansions[u]?).isSome ↔ Gave past u
  form : ∀ u e, g.expansions[u]? = some e → ∃ withLoop, e.recorded = some withLoop ∧
    (e.loop.isSome → (withLoop = true ↔ AskedLoops past u))
  refused : ∀ x ∈ past, x.given = false → ∃ s, g.store.state? x.node = some s ∧ s.completed = false

theorem Shows.completed (shows : g.Shows u s e) (loop : e.loop.isSome) : s.completed = true := by
  rw [shows.loop] at loop
  split at loop
  · assumption
  · cases loop

/-- A completed state has given links whenever it was asked. -/
theorem Remembers.gave_of_askedLoops (remembers : g.Remembers past) (known : g.store.state? u = some s)
    (completed : s.completed = true) (asked : AskedLoops past u) : Gave past u := by
  obtain ⟨x, member, rfl, -⟩ := asked
  cases given : x.given with
  | true => exact ⟨x, member, rfl, given⟩
  | false =>
    obtain ⟨s', known', goesOn⟩ := remembers.refused x member given
    obtain rfl := Option.some.inj (known.symm.trans known')
    rw [goesOn] at completed
    cases completed

/-- A call that succeeds is remembered. -/
theorem Remembers.expanded (remembers : g.Remembers past) (known : g.store.state? u = some s)
    (done : g.expanded u loops = (.ok e, g')) :
    g'.Remembers (past ++ [{ node := u, loops, given := true }]) := by
  obtain ⟨coherent', more, known', -, others⟩ := remembers.coherent.expanded done
  refine ⟨coherent', fun v => ?_, fun v e' found => ?_, fun x member isRefused => ?_⟩
  · rw [gave_append_singleton]
    by_cases same : v = u
    · subst same
      rw [known']
      exact ⟨fun _ => .inr ⟨rfl, rfl⟩, fun _ => rfl⟩
    · rw [others v same, remembers.given]
      exact ⟨.inl, fun gave => gave.resolve_right fun last => same last.1.symm⟩
  · simp only [askedLoops_append_singleton]
    by_cases same : v = u
    · subst same
      rw [known'] at found
      obtain rfl := Option.some.inj found
      obtain ⟨s', shows⟩ := coherent'.shows v e known'
      cases fresh : g.expansions[v]? with
      | none =>
        -- loops have not been asked for before, as the state would have given links
        refine ⟨loops, remembers.coherent.form_of_fresh fresh done, fun loop => ?_⟩
        have isState : s = s' := more.eq_of_state known shows.state
        have never : ¬AskedLoops past v := by
          intro asked
          have gave := remembers.gave_of_askedLoops known (isState ▸ shows.completed loop) asked
          rw [← remembers.given, fresh] at gave
          cases gave
        exact ⟨fun isAsked => .inr ⟨rfl, isAsked⟩, fun asked => (asked.resolve_left never).2⟩
      | some e₀ =>
        obtain ⟨sameLoop, isForm⟩ := form_of_known fresh done
        obtain ⟨withLoop, wasForm, asked⟩ := remembers.form v e₀ fresh
        rw [wasForm] at isForm
        by_cases stale : e₀.isStale loops = true
        · -- the form without the loop gives way to the form with it
          rw [if_pos stale] at isForm
          refine ⟨loops, isForm, fun _ => ?_⟩
          rw [Expansion.isStale, wasForm] at stale
          simp only [Bool.and_eq_true] at stale
          exact ⟨fun isAsked => .inr ⟨rfl, isAsked⟩, fun _ => stale.1.1⟩
        · rw [if_neg stale] at isForm
          refine ⟨withLoop, isForm, fun loop => ?_⟩
          rw [sameLoop] at loop
          rw [Expansion.isStale, wasForm] at stale
          simp only [Bool.and_eq_true, not_and, loop, not_true, imp_false, Bool.not_eq_true',
            Bool.not_eq_false] at stale
          rw [asked loop]
          refine ⟨.inl, fun isAsked => isAsked.elim id fun last => ?_⟩
          exact (asked loop).1 (stale last.2)
    · rw [others v same] at found
      obtain ⟨withLoop, isForm, asked⟩ := remembers.form v e' found
      refine ⟨withLoop, isForm, fun loop => (asked loop).trans ?_⟩
      exact ⟨.inl, fun isAsked => isAsked.resolve_right fun last => same last.1.symm⟩
  · rcases List.mem_append.1 member with member | last
    · obtain ⟨s', isState, goesOn⟩ := remembers.refused x member isRefused
      exact ⟨s', more.state _ s' isState, goesOn⟩
    · rw [List.mem_singleton.1 last] at isRefused
      cases isRefused

/-- So is a call that fails, after which the graph is as it was. -/
theorem Remembers.refuse (remembers : g.Remembers past) (known : g.store.state? u = some s) {err : Error}
    (failed : g.expanded u loops = (.error err, g')) (numbered : err ≠ .featuresExhausted) :
    g' = g ∧ g.Remembers (past ++ [{ node := u, loops, given := false }]) := by
  obtain ⟨same, fresh, stuck⟩ := expanded_error known failed numbered
  refine ⟨same, remembers.coherent, fun v => ?_, fun v e' found => ?_, fun x member isRefused => ?_⟩
  · rw [gave_append_singleton, remembers.given]
    exact ⟨.inl, fun gave => gave.resolve_right fun last => by cases last.2⟩
  · obtain ⟨withLoop, isForm, asked⟩ := remembers.form v e' found
    refine ⟨withLoop, isForm, fun loop => (asked loop).trans ?_⟩
    rw [askedLoops_append_singleton]
    refine ⟨.inl, fun isAsked => isAsked.resolve_right fun last => ?_⟩
    obtain rfl : u = v := last.1
    rw [fresh] at found
    cases found
  · rcases List.mem_append.1 member with member | last
    · exact remembers.refused x member isRefused
    · -- a completed state has no steps, and that is no failure
      rw [List.mem_singleton.1 last]
      refine ⟨s, known, Bool.eq_false_of_not_eq_true fun completed => ?_⟩
      rw [steps, completed] at stuck
      cases stuck

/-- A new graph remembers nothing. -/
theorem remembers_new {kind : GraphKind} {labelled : LabelledExample} {program : Program}
    {relations : List Relation} {features : FeatureTable} (lawful : features.Lawful)
    (made : ProofGraph.new kind labelled program relations features = .ok g) : g.Remembers [] := by
  obtain ⟨coherent, -, none, -⟩ := coherent_new lawful made
  refine ⟨coherent, fun u => ?_, fun u e found => ?_, fun x member => by cases member⟩
  · rw [none]
    exact ⟨fun gave => (by cases gave), fun ⟨x, member, _⟩ => by cases member⟩
  · rw [none] at found
    cases found

/-- A graph remembers all calls that have been made. -/
theorem Past.remembers {earlier : List Asking} (before : g₀.Remembers earlier) (calls : Past g₀ past g) :
    g.Remembers (earlier ++ past) ∧ g₀.Extends g := by
  induction calls with
  | none =>
    rw [List.append_nil]
    exact ⟨before, .refl g₀⟩
  | @call past g c u _ on numbered ih =>
    obtain ⟨remembers, more⟩ := ih
    rw [← List.append_assoc]
    obtain ⟨s, known⟩ := remembers.coherent.state_of_on on
    rw [remembers.coherent.call_eq on] at numbered ⊢
    rcases asked : g.expanded u c.loops with ⟨err | e, g'⟩
    · rw [asked] at numbered
      obtain ⟨same, remembers'⟩ := remembers.refuse known asked fun exhausted => by
        rw [exhausted] at numbered
        exact numbered rfl
      exact ⟨same ▸ remembers', same ▸ more⟩
    · exact ⟨remembers.expanded known asked, more.trans (remembers.coherent.expanded asked).2.1⟩

/-! ### What a graph shows -/

/-- The link back to the start. -/
def restartLink : Link := { child := 1, features := .single restartFeature 1 }

/-- The loop of a node. -/
def loopLink (u : Nat) : Link :=
  { child := u, features := .single (if u = 1 then startLoopFeature else loopFeature) 1 }

/-- What can be seen of a graph after some calls. Nodes are numbered from one, the start is the first, and
no two have the same key. A node that has given no links has no edges. The edges of one that has are the
steps of its state to the nodes of their classes and the link back to the start, and in front of them the
loop of a completed state for which loops have been asked. -/
structure Recounts (g₀ g : ProofGraph) (past : List Asking) : Prop where
  code : g.code = g₀.code
  nodes : ∀ u, (g.store.state? u).isSome ↔ 1 ≤ u ∧ u ≤ g.store.nodeCount
  start : g.store.state? 1 = some g₀.start
  keys : ∀ u v s s', g.store.state? u = some s → g.store.state? v = some s' →
    g.code.key s = g.code.key s' → u = v
  blank : ∀ u, ¬Gave past u → g.store.edges u = []
  edges : ∀ u s, g.store.state? u = some s → Gave past u → ∃ steps links, g.steps s = .ok steps ∧
    List.Forall₂ (fun o l => g.StandsFor l.child o.child ∧ l.features = o.features) steps links ∧
    (s.completed = true ∧ AskedLoops past u →
      g.features.Transcribes (loopLink u :: (links ++ [restartLink])) (g.store.edges u)) ∧
    (¬(s.completed = true ∧ AskedLoops past u) →
      g.features.Transcribes (links ++ [restartLink]) (g.store.edges u))
  targets : ∀ u, ∀ edge ∈ g.store.edges u, 1 ≤ edge.target ∧ edge.target ≤ g.store.nodeCount
  edgeCount : g.store.edgeCount = ∑ u ∈ Finset.Icc 1 g.store.nodeCount, (g.store.edges u).length

/-- The edges of a node that has given links. -/
theorem Remembers.edges (remembers : g.Remembers past) (known : g.store.state? u = some s)
    (gave : Gave past u) : ∃ steps links, g.steps s = .ok steps ∧
      List.Forall₂ (fun o l => g.StandsFor l.child o.child ∧ l.features = o.features) steps links ∧
      (s.completed = true ∧ AskedLoops past u →
        g.features.Transcribes (loopLink u :: (links ++ [restartLink])) (g.store.edges u)) ∧
      (¬(s.completed = true ∧ AskedLoops past u) →
        g.features.Transcribes (links ++ [restartLink]) (g.store.edges u)) := by
  obtain ⟨coherent, given, form, -⟩ := remembers
  obtain ⟨e, found⟩ := Option.isSome_iff_exists.1 ((given u).2 gave)
  obtain ⟨s', shows⟩ := coherent.shows u e found
  obtain rfl := Option.some.inj (known.symm.trans shows.state)
  obtain ⟨steps, links, made, base, stand⟩ := shows.base
  obtain ⟨withLoop, recorded, asked⟩ := form u e found
  have transcribes := coherent.recorded u e withLoop found recorded
  have loop := shows.loop
  rw [coherent.startId] at base loop
  rw [Expansion.links, base] at transcribes
  refine ⟨steps, links, made, stand, fun shown => ?_, fun hidden => ?_⟩
  · rw [if_pos shown.1] at loop
    rw [(asked (by rw [loop]; rfl)).2 shown.2, if_pos rfl, loop] at transcribes
    exact transcribes
  · by_cases completed : s.completed = true
    · rw [if_pos completed] at loop
      have without : withLoop = false := by
        refine Bool.eq_false_of_not_eq_true fun with_ => hidden ⟨completed, ?_⟩
        exact (asked (by rw [loop]; rfl)).1 with_
      rw [without, if_neg Bool.false_ne_true] at transcribes
      exact transcribes
    · rw [if_neg completed] at loop
      rw [loop, Option.toList_none, ite_self] at transcribes
      exact transcribes

/-- A node that has given no links has no edges. -/
theorem Remembers.blank (remembers : g.Remembers past) (silent : ¬Gave past u) :
    g.store.edges u = [] := by
  refine remembers.coherent.unrecorded u fun e found => absurd ?_ silent
  rw [← remembers.given, found]
  rfl

/-- Edges lead to nodes. -/
theorem Remembers.targets (remembers : g.Remembers past) {edge : Edge} (member : edge ∈ g.store.edges u) :
    1 ≤ edge.target ∧ edge.target ≤ g.store.nodeCount := by
  have coherent := remembers.coherent
  cases found : g.expansions[u]? with
  | none =>
    rw [coherent.unrecorded u fun e known => by rw [found] at known; cases known] at member
    cases member
  | some e =>
    obtain ⟨withLoop, recorded, -⟩ := remembers.form u e found
    obtain ⟨link, isLink, target, -⟩ :=
      exists_of_forall₂ (coherent.recorded u e withLoop found recorded) member
    have shown : KnowsLinks.known g u = some (e.links true) := congrArg (Option.map _) found
    rw [target]
    exact coherent.isSome_state.1 (coherent.isSome_child shown (e.links_subset withLoop isLink))

theorem Remembers.recounts (remembers : g.Remembers past) (more : g₀.Extends g)
    (start : g₀.store.state? 1 = some g₀.start) : g₀.Recounts g past where
  code := more.code
  nodes _ := remembers.coherent.isSome_state
  start := more.state 1 _ start
  keys _ _ _ _ known known' same := remembers.coherent.eq_of_key known known' same
  blank _ silent := remembers.blank silent
  edges _ _ known gave := remembers.edges known gave
  targets _ _ member := remembers.targets member
  edgeCount := by
    obtain ⟨states, holds⟩ := remembers.coherent.holds
    rw [holds.edgeCount, holds.count]

/-- Whatever is asked of a proof graph, it holds what the calls that have been made account for. Nodes keep
their states, a node has as many links as are counted, and a call at which the machine fails changes
nothing. -/
theorem calls_recount {kind : GraphKind} {labelled : LabelledExample} {program : Program}
    {relations : List Relation} {features : FeatureTable} (lawful : features.Lawful)
    (made : ProofGraph.new kind labelled program relations features = .ok g₀) (calls : Past g₀ past g) :
    g₀.Recounts g past ∧
      (∀ later g', Past g later g' → ∀ u s, g.store.state? u = some s → g'.store.state? u = some s) ∧
      (∀ u s loops, g.store.state? u = some s →
        g.call (.degree s loops) = Prod.map (Except.map Reply.counted) id (g.call (.outlinks s loops)) ∧
        g.call (.idDegree u loops) =
          Prod.map (Except.map Reply.counted) id (g.call (.idOutlinks u loops))) ∧
      ∀ c u err, c.On g u → (g.call c).1 = .error err → err ≠ .featuresExhausted → (g.call c).2 = g := by
  have remembersNew := remembers_new lawful made
  obtain ⟨remembers, more⟩ := calls.remembers remembersNew
  rw [List.nil_append] at remembers
  have coherent := remembers.coherent
  refine ⟨remembers.recounts more remembersNew.coherent.start, fun later g' after u s known => ?_,
    fun u s loops known => ?_, fun c u err on failed numbered => ?_⟩
  · exact (after.remembers remembers).2.state u s known
  · have inside := coherent.isSome_state.1 (by rw [known]; rfl)
    have counts {c c' : Call} (on : c.On g u) (on' : c'.On g u) (same : c.loops = c'.loops)
        (reads : ∀ e, c.read e = (c'.read e).counted) :
        g.call c = Prod.map (Except.map Reply.counted) id (g.call c') := by
      rw [coherent.call_eq on, coherent.call_eq on', same]
      refine Prod.ext ?_ rfl
      cases (g.expanded u c'.loops).1 with
      | error err => rfl
      | ok e => exact congrArg Except.ok (reads e)
    exact ⟨counts known known rfl fun e => congrArg Reply.degree (e.length_links loops).symm,
      counts ⟨rfl, inside⟩ ⟨rfl, inside⟩ rfl fun e => congrArg Reply.degree (e.length_links loops).symm⟩
  · obtain ⟨s, known⟩ := coherent.state_of_on on
    rw [coherent.call_eq on] at failed ⊢
    rcases asked : g.expanded u c.loops with ⟨err' | e, g'⟩
    · rw [asked] at failed
      cases failed
      exact (expanded_error known asked numbered).1
    · rw [asked] at failed
      cases failed

/-- A question that is asked for its links and then an answer for how many it has. -/
theorem calls_recount_fact : ∃ g₀ g : ProofGraph, FeatureTable.empty.Lawful ∧
    ProofGraph.new .cachingId askFact factProgram [] .empty = .ok g₀ ∧
    Past g₀ [⟨1, true, true⟩, ⟨2, true, true⟩] g ∧ g.store.state? 2 = some factEnd ∧
    g₀.Recounts g [⟨1, true, true⟩, ⟨2, true, true⟩] ∧
    g.call (.degree factEnd true) =
      Prod.map (Except.map Reply.counted) id (g.call (.outlinks factEnd true)) := by
  obtain ⟨g₀, made, isCode, isStart⟩ := exists_factGraph .cachingId .empty
  obtain ⟨g₁, g₂, e₁, e₂, graphs⟩ :=
    exists_factGraphs FeatureTable.lawful_empty ⟨by decide, by decide⟩ made isCode isStart
  have first : g₀.call (.idOutlinks 1 true) = (.ok (.links (e₁.links true)), g₁) := by
    simp only [call, ProofGraph.links, graphs.first]
    rfl
  have second : g₁.call (.idDegree 2 true) = (.ok (.degree (e₂.degree true)), g₂) := by
    simp only [call, ProofGraph.degree, graphs.second]
    rfl
  have on₁ : (Call.idOutlinks 1 true).On g₀ 1 := ⟨rfl, le_rfl, graphs.count.ge⟩
  have on₂ : (Call.idDegree 2 true).On g₁ 2 := ⟨rfl, by decide, graphs.count₁.ge⟩
  have past₁ := Past.none.call on₁ (by rw [first]; rintro ⟨⟩)
  rw [first] at past₁
  have past₂ := past₁.call on₂ (by rw [second]; rintro ⟨⟩)
  rw [second] at past₂
  obtain ⟨recounts, -, counts, -⟩ := calls_recount FeatureTable.lawful_empty made past₂
  exact ⟨g₀, g₂, FeatureTable.lawful_empty, made, past₂, graphs.isEnd, recounts,
    (counts 2 factEnd true graphs.isEnd).1⟩

end ProofGraph

end ProofWalk
