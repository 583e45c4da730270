import ProofWalk.Proofs.ProofGraph.Calls
import ProofWalk.Proofs.ProofGraph.Classes

/-!
# Explored proof graphs

A proof graph that is asked for links in any order, always with loops, holds the start, the states that it
has been asked for and the children of those that have given links, and no others. A state that it is asked
for need not be one of its nodes: it may be any that runs of the query arrive at.

## Main definitions

* `ProofGraph.Explored` — the calls that made one graph of another, with the keys that were asked for
* `ProofGraph.Grown` — the invariant: where the nodes and the expansions of a graph come from
* `ProofGraph.Answered` — a key has links, unless the machine fails there

## Main results

* `ProofGraph.Explored.grown` — the invariant holds of a new graph and is kept by every call
-/

namespace ProofWalk

/-- The state that a call is about. -/
def Call.About (c : Call) (g : ProofGraph) (s : State) : Prop :=
  match c with
  | .outlinks s' _ | .degree s' _ => s' = s
  | .idOutlinks u _ | .idDegree u _ => g.store.state? u = some s

namespace ProofGraph

/-- The machine that a graph asks for steps. -/
def machine (g : ProofGraph) : Machine := ⟨g.code, .initial⟩

/-- One graph has become another by calls with loops, on its nodes and on other states that runs of its
query arrive at, while feature numbers lasted. The keys are those of the states asked for; a call in vain
on a node need not be counted, as it changes nothing. -/
inductive Explored (g₀ : ProofGraph) : List Key → ProofGraph → Prop
  | none : Explored g₀ [] g₀
  | asked {keys : List Key} {g : ProofGraph} {c : Call} {s : State} (before : Explored g₀ keys g)
      (about : c.About g s)
      (met : (∃ u, g.store.state? u = some s) ∨ g₀.machine.Reaches g₀.start s)
      (loops : c.loops = true) (numbered : (g.call c).1 ≠ .error .featuresExhausted) :
      Explored g₀ (g.code.key s :: keys) (g.call c).2
  | refused {keys : List Key} {g : ProofGraph} {c : Call} {u : Nat} {err : Error}
      (before : Explored g₀ keys g) (on : c.On g u) (failed : (g.call c).1 = .error err)
      (numbered : err ≠ .featuresExhausted) : Explored g₀ keys (g.call c).2

/-- Where the nodes and the expansions of a graph come from: the keys that were asked for, the start, and
the children of expansions. -/
structure Grown (m : Machine) (start : State) (keys : List Key) (g : ProofGraph) : Prop where
  coherent : g.Coherent
  merges : g.Merges m start
  origin : g.start = start
  expansion : ∀ u s, g.store.state? u = some s → (g.expansions[u]?).isSome → g.code.key s ∈ keys
  form : ∀ (u : Nat) (e : Expansion), g.expansions[u]? = some e → e.recorded = some true
  node : ∀ u s, g.store.state? u = some s → u = 1 ∨ g.code.key s ∈ keys ∨
    ∃ (v : Nat) (e : Expansion), g.expansions[v]? = some e ∧ ∃ l ∈ e.base, l.child = u

/-- The node of a key has links, unless the machine fails at its state. -/
def Answered (g : ProofGraph) (key : Key) : Prop :=
  ∃ u s, g.store.state? u = some s ∧ g.code.key s = key ∧
    ((g.expansions[u]?).isSome ∨ ∃ err, g.steps s = .error err)

variable {g g' : ProofGraph} {m : Machine} {start s : State} {u : Nat} {e e' : Expansion} {loops : Bool}
  {keys : List Key}

/-! ### Where nodes come from -/

/-- Successors that come to stand at nodes make no other nodes. -/
theorem Coherent.state_of_linksTo {steps : List Outlink} (coherent : g.Coherent)
    (alive : ∀ o ∈ steps, o.child.failed = false) {v : Nat} {r : State}
    (known : (g.linksTo steps).2.store.state? v = some r) :
    g.store.state? v = some r ∨ ∃ l ∈ (g.linksTo steps).1, l.child = v := by
  induction steps generalizing g with
  | nil => exact .inl known
  | cons o rest ih =>
    have first := alive o List.mem_cons_self
    obtain ⟨coherent₁, -⟩ := coherent.classNode first
    obtain before | ⟨l, member, child⟩ :=
      ih coherent₁ (fun o' member => alive o' (List.mem_cons_of_mem _ member)) known
    · obtain before | ⟨isNew, -⟩ := coherent.state_of_classNode first before
      · exact .inl before
      · exact .inr ⟨_, List.mem_cons_self, isNew.symm⟩
    · exact .inr ⟨l, List.mem_cons_of_mem _ member, child⟩

/-- Recording changes no state and no link. -/
theorem Coherent.state_of_record (coherent : g.Coherent) (done : g.record u e loops = (.ok e', g')) :
    e'.base = e.base ∧ g'.classes = g.classes ∧ ∀ v, g'.store.state? v = g.store.state? v := by
  unfold ProofGraph.record at done
  split at done
  · split at done
    · cases done
    · cases done
      exact ⟨rfl, rfl, coherent.state?_setEdges u _⟩
  · cases done
    exact ⟨rfl, rfl, fun _ => rfl⟩

/-! ### Classes -/

/-- The state of a node is one that runs arrive at. -/
theorem Merges.reaches (merges : g.Merges m start) (coherent : g.Coherent)
    (known : g.store.state? u = some s) : m.Reaches start s :=
  (merges.classes _ s (coherent.represented u s known)).1

theorem Merges.classNode (merges : g.Merges m start) (reaches : m.Reaches start s) :
    (g.classNode s).2.Merges m start := by
  obtain ⟨code, classes⟩ := (merges.representative reaches).2
  exact ⟨code, classes⟩

theorem Merges.linksTo {steps : List Outlink} (merges : g.Merges m start)
    (reach : ∀ o ∈ steps, m.Reaches start o.child) : (g.linksTo steps).2.Merges m start := by
  induction steps generalizing g with
  | nil => exact merges
  | cons o rest ih =>
    exact ih (merges.classNode (reach o List.mem_cons_self)) fun o' member =>
      reach o' (List.mem_cons_of_mem _ member)

/-- The steps of the machine from a state lead to states that runs arrive at. -/
theorem Merges.reaches_step (merges : g.Merges m start) (reaches : m.Reaches start s)
    {steps : List Outlink} (made : g.steps s = .ok steps) : ∀ o ∈ steps, m.Reaches start o.child := by
  unfold ProofGraph.steps at made
  split at made
  · cases made
    intro o member
    cases member
  · intro o member
    have linked : (m.outlinks s).1 = (g.machine.outlinks s).1 :=
      Machine.outlinks_live merges.code.symm s
    exact .step reaches (linked.trans made) member

/-- What is known of a graph when a node has given links. -/
theorem Coherent.grown_of_expanded (coherent : g.Coherent) (merges : g.Merges m start)
    (done : g.expanded u loops = (.ok e, g')) :
    g'.Merges m start ∧ (∀ e₀, g.expansions[u]? = some e₀ → e.base = e₀.base) ∧
      ∀ v r, g'.store.state? v = some r →
        g.store.state? v = some r ∨ ∃ l ∈ e.base, l.child = v := by
  rcases g.expanded_cases u loops with ⟨err, failed⟩ | ⟨e₀, found, asked⟩ |
    ⟨s, e₁, g₁, found, known, expand, asked⟩
  · rw [failed] at done
    cases done
  · rw [asked] at done
    obtain ⟨-, more, -⟩ := coherent.record found done
    obtain ⟨base, classes, states⟩ := coherent.state_of_record done
    refine ⟨⟨more.code.trans merges.code, classes ▸ merges.classes⟩, fun e₁ known => ?_,
      fun v r known => .inl ((states v).symm.trans known)⟩
    rw [found] at known
    cases known
    exact base
  · rw [asked] at done
    obtain ⟨coherent₁, more₁, shows, unrecorded, expansions⟩ := coherent.expand known expand
    have fresh : g₁.expansions[u]? = Option.none := by rw [expansions, found]
    obtain ⟨coherent₂, more₂⟩ := coherent₁.insert shows fresh unrecorded
    have inserted : (g₁.expansions.insert u e₁)[u]? = some e₁ := Std.HashMap.getElem?_insert_self
    obtain ⟨-, more, -⟩ := coherent₂.record inserted done
    obtain ⟨base, classes, states⟩ := coherent₂.state_of_record done
    -- an expansion puts the children of the node into the store, and nothing else does
    unfold ProofGraph.expand at expand
    split at expand
    · cases expand
    rename_i steps made
    cases expand
    have linked := merges.linksTo (merges.reaches_step (merges.reaches coherent known) made)
    refine ⟨⟨more.code.trans linked.code, classes ▸ linked.classes⟩, fun e₀ before => ?_,
      fun v r isState => ?_⟩
    · rw [found] at before
      cases before
    rw [states] at isState
    obtain before | ⟨l, member, child⟩ :=
      coherent.state_of_linksTo (alive_of_steps made) isState
    · exact .inl before
    · refine .inr ⟨l, ?_, child⟩
      rw [base]
      exact List.mem_append_left _ member

/-! ### Growth -/

theorem Answered.mono {key : Key} (answered : g.Answered key) (more : g.Extends g')
    (expansions : ∀ u : Nat, (g.expansions[u]?).isSome → (g'.expansions[u]?).isSome) : g'.Answered key := by
  obtain ⟨u, s, known, same, answer⟩ := answered
  refine ⟨u, s, more.state u s known, by rw [more.code]; exact same, ?_⟩
  exact answer.imp (expansions u) fun ⟨err, stuck⟩ => ⟨err, (steps_of_extends more s).trans stuck⟩

theorem Grown.mono {keys' : List Key} (grown : Grown m start keys g) (more : keys ⊆ keys') :
    Grown m start keys' g where
  coherent := grown.coherent
  merges := grown.merges
  origin := grown.origin
  expansion u s known shown := more (grown.expansion u s known shown)
  form := grown.form
  node u s known := (grown.node u s known).imp id (.imp_left (more ·))

/-- When a node of a key that has been asked for gives links, only its children join the nodes. -/
theorem Grown.given (grown : Grown m start keys g) (known : g.store.state? u = some s)
    (asked : g.code.key s ∈ keys) (done : g.expanded u true = (.ok e, g')) :
    Grown m start keys g' ∧ g.Extends g' ∧ g'.Answered (g.code.key s) ∧
      ∀ key, g.Answered key → g'.Answered key := by
  obtain ⟨coherent, more, shown, -, others⟩ := grown.coherent.expanded done
  obtain ⟨merges, base, children⟩ := grown.coherent.grown_of_expanded grown.merges done
  have still (v : Nat) (before : (g.expansions[v]?).isSome) : (g'.expansions[v]?).isSome := by
    by_cases own : v = u
    · rw [own, shown]
      rfl
    · rwa [others v own]
  refine ⟨⟨coherent, merges, more.start.trans grown.origin, fun v r isState isShown => ?_,
    fun v e' found => ?_, fun v r isState => ?_⟩, more,
    ⟨u, s, more.state u s known, by rw [more.code], .inl (by rw [shown]; rfl)⟩,
    fun key answered => answered.mono more still⟩
  · -- the only new expansion is of the key that is asked for
    by_cases own : v = u
    · rw [own] at isState
      rwa [← more.eq_of_state known isState, more.code]
    · rw [others v own] at isShown
      obtain ⟨e', found⟩ := Option.isSome_iff_exists.1 isShown
      obtain ⟨r', shows⟩ := grown.coherent.shows v e' found
      obtain rfl := more.eq_of_state shows.state isState
      rw [more.code]
      exact grown.expansion v r' shows.state isShown
  · -- it is recorded with loops, as one that was known has been before
    by_cases own : v = u
    · rw [own, shown] at found
      cases found
      cases before : g.expansions[u]? with
      | none => exact grown.coherent.form_of_fresh before done
      | some e₀ =>
        obtain ⟨-, form⟩ := form_of_known before done
        rw [form, grown.form u e₀ before, ite_self]
    · rw [others v own] at found
      exact grown.form v e' found
  · -- the new nodes are its children
    obtain before | ⟨l, member, child⟩ := children v r isState
    · rw [more.code]
      refine (grown.node v r before).imp id (.imp id ?_)
      rintro ⟨w, e₀, found, l, member, child⟩
      by_cases own : w = u
      · rw [own] at found
        exact ⟨u, e, shown, l, (base e₀ found).symm ▸ member, child⟩
      · exact ⟨w, e₀, by rw [others w own, found], l, member, child⟩
    · exact .inr (.inr ⟨u, e, shown, l, member, child⟩)

/-- Whether it gives links or the machine fails, a node that is asked for its links answers. -/
theorem Grown.expanded (grown : Grown m start keys g) (known : g.store.state? u = some s)
    (asked : g.code.key s ∈ keys) (numbered : (g.expanded u true).1 ≠ .error .featuresExhausted) :
    Grown m start keys (g.expanded u true).2 ∧ g.Extends (g.expanded u true).2 ∧
      (g.expanded u true).2.Answered (g.code.key s) ∧
      ∀ key, g.Answered key → (g.expanded u true).2.Answered key := by
  rcases done : g.expanded u true with ⟨err | e, g'⟩
  · obtain ⟨rfl, -, stuck⟩ := expanded_error known done fun exhausted => numbered (by
      rw [done, exhausted])
    exact ⟨grown, .refl _, ⟨u, s, known, rfl, .inr ⟨err, stuck⟩⟩, fun key answered => answered⟩
  · exact grown.given known asked done

theorem Coherent.alive_of_reaches (coherent : g.Coherent) (origin : g.start = start)
    (reaches : m.Reaches start s) : s.failed = false := by
  cases reaches with
  | start => exact coherent.alive 1 _ (origin ▸ coherent.start)
  | step _ linked member => exact Code.alive_of_outlinks linked _ member

/-- A state that is named comes to stand at a node. -/
theorem Grown.idFor (grown : Grown m start keys g) (reaches : m.Reaches start s)
    (asked : g.code.key s ∈ keys) :
    Grown m start keys (g.idFor s).2 ∧ g.Extends (g.idFor s).2 ∧
      (∃ r, (g.idFor s).2.store.state? (g.idFor s).1 = some r ∧ g.code.key r = g.code.key s) ∧
      (g.idFor s).2.expansions = g.expansions := by
  obtain ⟨states, holds⟩ := grown.coherent.holds
  unfold ProofGraph.idFor
  cases found : g.store.idOf? s with
  | some u => exact ⟨grown, .refl g, ⟨s, (holds.id s u).1 found, rfl⟩, rfl⟩
  | none =>
    have alive := grown.coherent.alive_of_reaches grown.origin reaches
    obtain ⟨coherent, more, ⟨r, known, same⟩, expansions, -⟩ := grown.coherent.classNode alive
    rw [more.code] at same
    refine ⟨⟨coherent, grown.merges.classNode reaches, more.start.trans grown.origin,
      fun v r' isState shown => ?_, fun v e found => ?_, fun v r' isState => ?_⟩, more,
      ⟨r, known, same⟩, expansions⟩
    · rw [expansions] at shown
      obtain ⟨e, found⟩ := Option.isSome_iff_exists.1 shown
      obtain ⟨r'', shows⟩ := grown.coherent.shows v e found
      obtain rfl := more.eq_of_state shows.state isState
      rw [more.code]
      exact grown.expansion v r'' shows.state shown
    · rw [expansions] at found
      exact grown.form v e found
    · rw [more.code, expansions]
      obtain before | ⟨-, rfl⟩ := grown.coherent.state_of_classNode alive isState
      · exact grown.node v r' before
      · exact .inr (.inl asked)

/-! ### Calls -/

/-- A call about a state asks for the expansion of its node. -/
theorem Coherent.call_of_about (coherent : g.Coherent) {c : Call} (about : c.About g s) :
    g.call c = (((g.idFor s).2.expanded (g.idFor s).1 c.loops).1.map c.read,
      ((g.idFor s).2.expanded (g.idFor s).1 c.loops).2) := by
  have mapped (α : Type) (f : Expansion → α) (h : α → Reply) (r : Except Error Expansion) :
      (r.map f).map h = r.map fun e => h (f e) := by
    cases r <;> rfl
  obtain ⟨states, holds⟩ := coherent.holds
  cases c with
  | outlinks s' loops | degree s' loops =>
    obtain rfl : s' = s := about
    exact Prod.ext (mapped _ _ _ _) rfl
  | idOutlinks u loops | idDegree u loops =>
    have named : g.idFor s = (u, g) := by rw [ProofGraph.idFor, (holds.id s u).2 about]
    rw [named]
    exact Prod.ext (mapped _ _ _ _) rfl

theorem call_idOutlinks (done : g.expanded u loops = (.ok e, g')) :
    g.call (.idOutlinks u loops) = (.ok (.links (e.links loops)), g') := by
  simp only [call, ProofGraph.links, done]
  rfl

theorem call_idDegree (done : g.expanded u loops = (.ok e, g')) :
    g.call (.idDegree u loops) = (.ok (.degree (e.degree loops)), g') := by
  simp only [call, ProofGraph.degree, done]
  rfl

/-- A new graph has only its start. -/
theorem grown_new {kind : GraphKind} {labelled : LabelledExample} {program : Program}
    {relations : List Relation} {features : FeatureTable} (lawful : features.Lawful)
    (made : ProofGraph.new kind labelled program relations features = .ok g) :
    Grown g.machine g.start [] g := by
  obtain ⟨coherent, -, none, -, count⟩ := coherent_new lawful made
  have merges : g.Merges g.machine g.start := by
    refine ⟨rfl, fun key r found => ?_⟩
    obtain ⟨same, u, known⟩ := coherent.classes key r found
    rw [(coherent.eq_start count known).2] at same ⊢
    exact ⟨.start, same⟩
  refine ⟨coherent, merges, rfl, fun u s _ shown => ?_, fun u e found => ?_, fun u s known => .inl ?_⟩
  · rw [none] at shown
    cases shown
  · rw [none] at found
    cases found
  · exact (coherent.eq_start count known).1

/-- The nodes and expansions of an explored graph come from the keys that it has been asked for, and all
these have been answered. -/
theorem Explored.grown {g₀ : ProofGraph} (first : Grown g₀.machine g₀.start [] g₀)
    (explored : Explored g₀ keys g) :
    Grown g₀.machine g₀.start keys g ∧ g₀.Extends g ∧ ∀ key ∈ keys, g.Answered key := by
  induction explored with
  | none => exact ⟨first, .refl g₀, fun key member => by cases member⟩
  | @asked keys g c s _ about met loops numbered ih =>
    obtain ⟨grown, more, answered⟩ := ih
    have reaches : g₀.machine.Reaches g₀.start s :=
      met.elim (fun ⟨u, known⟩ => grown.merges.reaches grown.coherent known) id
    have grown' := grown.mono (List.subset_cons_self (g.code.key s) keys)
    obtain ⟨named, more₁, ⟨r, known, same⟩, expansions⟩ := grown'.idFor reaches List.mem_cons_self
    rw [grown.coherent.call_of_about about, loops] at numbered ⊢
    have isAsked : (g.idFor s).2.code.key r ∈ g.code.key s :: keys := by
      rw [more₁.code, same]
      exact List.mem_cons_self
    obtain ⟨grown'', more₂, answer, others⟩ := named.expanded known isAsked fun exhausted => by
      rw [exhausted] at numbered
      exact numbered rfl
    refine ⟨grown'', more.trans (more₁.trans more₂), fun key member => ?_⟩
    rcases List.mem_cons.1 member with rfl | member
    · rw [more₁.code, same] at answer
      exact answer
    · exact others key ((answered key member).mono more₁ fun u shown => by rwa [expansions])
  | @refused keys g c u err _ on failed numbered ih =>
    obtain ⟨grown, more, answered⟩ := ih
    obtain ⟨s, known⟩ := grown.coherent.state_of_on on
    rw [grown.coherent.call_eq on] at failed ⊢
    rcases done : g.expanded u c.loops with ⟨err' | e, g'⟩
    · rw [done] at failed
      cases failed
      obtain ⟨rfl, -⟩ := expanded_error known done numbered
      exact ⟨grown, more, answered⟩
    · rw [done] at failed
      cases failed

end ProofGraph

end ProofWalk
