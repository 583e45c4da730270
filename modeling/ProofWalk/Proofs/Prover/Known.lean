import ProofWalk.Proofs.Exact
import ProofWalk.Proofs.Results
import ProofWalk.Prover.Walk

/-!
# What a walk knows of its graph

A graph grows while it is walked on, but the links of a node stay once they have been asked for. What
is known at the end of a walk therefore tells all that the walk has seen.

## Main definitions

* `LawfulWalkable` — a graph that keeps the links it has shown
* `Grows` — a graph that knows at least as much
* `Met`, `Asked`, `Expands` — the nodes that a graph has shown, what becomes of it when it is asked
  for their links, and whether it always gives them
* `weighed` — links as the nodes they lead to with their weights

## Main results

* `Walk.degree_shown`, `Walk.weighLinks_shown` — what a walk is told is known from then on
-/

namespace ProofWalk

/-- A graph with the links, loops included, that it has shown so far. -/
class KnowsLinks (Γ : Type) where
  known : Γ → Nat → Option (List Link)

/-- A graph knows at least as much as another one that starts at the same node. -/
structure Grows {Γ : Type} [Walkable Γ] [KnowsLinks Γ] (g g' : Γ) : Prop where
  start : Walkable.start g' = Walkable.start g
  known : ∀ u links, KnowsLinks.known g u = some links → KnowsLinks.known g' u = some links

/-- A graph that keeps the links it has shown. -/
class LawfulWalkable (Γ : Type) [Walkable Γ] [KnowsLinks Γ] : Prop where
  grows_links : ∀ (g : Γ) u loops, Grows g (Walkable.links g u loops).2
  grows_degree : ∀ (g : Γ) u loops, Grows g (Walkable.degree g u loops).2
  known_links : ∀ (g : Γ) u links, (Walkable.links g u true).1 = .ok links →
    KnowsLinks.known (Walkable.links g u true).2 u = some links
  known_degree : ∀ (g : Γ) u n, (Walkable.degree g u true).1 = .ok n →
    ∃ links, KnowsLinks.known (Walkable.degree g u true).2 u = some links ∧ links.length = n

/-! ### Proof graphs -/

instance : KnowsLinks ProofGraph where
  known g u := (g.expansions[u]?).map (·.links true)

namespace ProofGraph

theorem classNode_expansions (g : ProofGraph) (s : State) :
    (g.classNode s).2.expansions = g.expansions ∧ (g.classNode s).2.startId = g.startId := by
  unfold classNode representative
  simp only
  split <;> exact ⟨rfl, rfl⟩

theorem linksTo_expansions (g : ProofGraph) (links : List Outlink) :
    (g.linksTo links).2.expansions = g.expansions ∧ (g.linksTo links).2.startId = g.startId := by
  induction links generalizing g with
  | nil => exact ⟨rfl, rfl⟩
  | cons o rest ih =>
    obtain ⟨expansions, startId⟩ := g.classNode_expansions o.child
    obtain ⟨expansions', startId'⟩ := ih (g.classNode o.child).2
    exact ⟨expansions'.trans expansions, startId'.trans startId⟩

theorem expand_expansions (g : ProofGraph) (u : Nat) (s : State) :
    (g.expand u s).2.expansions = g.expansions ∧ (g.expand u s).2.startId = g.startId := by
  unfold expand
  split
  · exact ⟨rfl, rfl⟩
  · exact g.linksTo_expansions _

/-- Recording changes what is known of no node, and gives the expansion with the links it had. -/
theorem record_known {g : ProofGraph} {u : Nat} {e e₀ : Expansion}
    (found : g.expansions[u]? = some e₀) (base : e₀.base = e.base) (loop : e₀.loop = e.loop)
    (loops : Bool) :
    (g.record u e loops).2.startId = g.startId ∧
      (∀ v, KnowsLinks.known (g.record u e loops).2 v = KnowsLinks.known g v) ∧
      ∀ e', (g.record u e loops).1 = .ok e' → e'.base = e.base ∧ e'.loop = e.loop := by
  unfold record
  split
  · split
    · exact ⟨rfl, fun v => rfl, fun e' failed => by cases failed⟩
    · refine ⟨rfl, fun v => ?_, fun e' done => by cases done; exact ⟨rfl, rfl⟩⟩
      change ((g.expansions.insert u { e with recorded := some loops })[v]?).map _ =
        (g.expansions[v]?).map _
      rw [Std.HashMap.getElem?_insert]
      split
      · rename_i same
        obtain rfl : u = v := eq_of_beq same
        rw [found, Option.map_some, Option.map_some, Expansion.links, Expansion.links, base, loop]
      · rfl
  · exact ⟨rfl, fun v => rfl, fun e' done => by cases done; exact ⟨rfl, rfl⟩⟩

/-- An expansion stays known, and so does all that was known before. -/
theorem expanded_known (g : ProofGraph) (u : Nat) (loops : Bool) :
    Grows g (g.expanded u loops).2 ∧ ∀ e, (g.expanded u loops).1 = .ok e →
      KnowsLinks.known (g.expanded u loops).2 u = some (e.links true) := by
  unfold expanded
  cases found : g.expansions[u]? with
  | some e₀ =>
    obtain ⟨startId, known, same⟩ := record_known found rfl rfl loops
    refine ⟨⟨startId, fun v links isKnown => (known v).trans isKnown⟩, fun e done => ?_⟩
    obtain ⟨base, loop⟩ := same e done
    refine (known u).trans ?_
    change (g.expansions[u]?).map _ = _
    rw [found, Option.map_some, Expansion.links, Expansion.links, base, loop]
  | none =>
    simp only
    split
    · exact ⟨⟨rfl, fun v links isKnown => isKnown⟩, fun e failed => by cases failed⟩
    · rename_i s _
      obtain ⟨expansions, startId⟩ := g.expand_expansions u s
      split
      · rename_i e g' expand
        rw [expand] at expansions startId
        refine ⟨⟨startId, fun v links isKnown => ?_⟩, fun e failed => by cases failed⟩
        change (g'.expansions[v]?).map _ = _
        rw [expansions]
        exact isKnown
      · rename_i e g' expand
        rw [expand] at expansions startId
        -- the node has not been expanded yet, so that nothing known is overwritten
        let g'' : ProofGraph := { g' with expansions := g'.expansions.insert u e }
        have inserted : g''.expansions[u]? = some e := Std.HashMap.getElem?_insert_self
        obtain ⟨startId', known, same⟩ := record_known inserted rfl rfl loops
        refine ⟨⟨startId'.trans startId, fun v links isKnown => (known v).trans ?_⟩,
          fun e' done => ?_⟩
        · change ((g'.expansions.insert u e)[v]?).map _ = _
          rw [Std.HashMap.getElem?_insert, expansions]
          split
          · rename_i same
            obtain rfl : u = v := eq_of_beq same
            change (g.expansions[u]?).map _ = _ at isKnown
            rw [found] at isKnown
            cases isKnown
          · exact isKnown
        · obtain ⟨base, loop⟩ := same e' done
          refine (known u).trans ?_
          change (g''.expansions[u]?).map _ = _
          rw [inserted, Option.map_some, Expansion.links, Expansion.links, base, loop]

end ProofGraph

/-- The links of a node are as many as its degree. -/
theorem Expansion.length_links (e : Expansion) (loops : Bool) :
    (e.links loops).length = e.degree loops := by
  unfold Expansion.links Expansion.degree
  cases loops <;> cases e.loop <;> simp

/-- Asking for loops leaves out no link. -/
theorem Expansion.links_subset (e : Expansion) (loops : Bool) : e.links loops ⊆ e.links true := by
  unfold Expansion.links
  cases loops with
  | true => exact fun _ member => member
  | false => exact fun _ member => List.mem_append_right _ member

instance : LawfulWalkable ProofGraph where
  grows_links g u loops := (g.expanded_known u loops).1
  grows_degree g u loops := (g.expanded_known u loops).1
  known_links g u links done := by
    obtain ⟨e, expanded, rfl⟩ := Except.map_eq_ok.1 done
    exact (g.expanded_known u true).2 e expanded
  known_degree g u n done := by
    obtain ⟨e, expanded, rfl⟩ := Except.map_eq_ok.1 done
    exact ⟨_, (g.expanded_known u true).2 e expanded, e.length_links true⟩

/-! ### Walks -/

namespace Grows

variable {Γ : Type} [Walkable Γ] [KnowsLinks Γ] {g g' g'' : Γ}

theorem refl (g : Γ) : Grows g g := ⟨rfl, fun _ _ known => known⟩

theorem trans (first : Grows g g') (second : Grows g' g'') : Grows g g'' :=
  ⟨second.start.trans first.start, fun u links known =>
    second.known u links (first.known u links known)⟩

end Grows

section Met

variable {Γ : Type} [Walkable Γ] [KnowsLinks Γ] {g g' g'' : Γ} {u : Nat}

/-- The nodes that a graph has shown: the start, and those that links it has shown lead to. -/
inductive Met (g : Γ) : Nat → Prop
  | start : Met g (Walkable.start g)
  | child {u : Nat} {links : List Link} {l : Link} (known : KnowsLinks.known g u = some links)
      (member : l ∈ links) : Met g l.child

/-- What a graph becomes when it is asked for the links and degrees of nodes that it has shown. -/
inductive Asked (g : Γ) : Γ → Prop
  | none : Asked g g
  | links {g' : Γ} {u : Nat} (before : Asked g g') (met : Met g' u) :
      Asked g (Walkable.links g' u true).2
  | degree {g' : Γ} {u : Nat} (before : Asked g g') (met : Met g' u) :
      Asked g (Walkable.degree g' u true).2

theorem Asked.trans (first : Asked g g') (second : Asked g' g'') : Asked g g'' := by
  induction second with
  | none => exact first
  | links _ met ih => exact ih.links met
  | degree _ met ih => exact ih.degree met

/-- Whatever a graph is asked for, it grows. -/
theorem Asked.grows [LawfulWalkable Γ] (asked : Asked g g') : Grows g g' := by
  induction asked with
  | none => exact .refl g
  | links _ _ ih => exact ih.trans (LawfulWalkable.grows_links _ _ _)
  | degree _ _ ih => exact ih.trans (LawfulWalkable.grows_degree _ _ _)

theorem Met.mono (grows : Grows g g') (met : Met g u) : Met g' u := by
  cases met with
  | start =>
    rw [← grows.start]
    exact .start
  | child known member => exact .child (grows.known _ _ known) member

/-- Every node that a graph may come to show has links: whenever it is asked for them, it gives
them. -/
def Expands (g : Γ) : Prop :=
  ∀ g', Asked g g' → ∀ u, Met g' u →
    (∃ links, (Walkable.links g' u true).1 = .ok links) ∧
      ∃ n, (Walkable.degree g' u true).1 = .ok n

theorem Expands.mono (expands : Expands g) (asked : Asked g g') : Expands g' :=
  fun _ more => expands _ (asked.trans more)

end Met

namespace Walk

variable {Γ : Type} {s s' : Session Γ}

section

variable {K : Type} [Scalar K] [Walkable Γ]

/-- Links as the nodes that they lead to with their weights. -/
def weighed (w : Weighting K) (links : List Link) : List (Nat × K) :=
  links.map fun l => (l.child, w.weight l.features)

theorem degree_apply (u : Nat) (s : Session Γ) :
    (degree u : Walk Γ K) s = ((Walkable.degree s.graph u true).1.map Scalar.ofNat,
      { s with graph := (Walkable.degree s.graph u true).2 }) := rfl

omit [Scalar K] [Walkable Γ] in
theorem mapM_weigh (w : Weighting K) (links : List Link) (s : Session Γ) :
    ∃ tally, (links.mapM (weigh w) : Walk Γ _) s = (.ok (weighed w links), { s with tally }) := by
  induction links generalizing s with
  | nil => exact ⟨s.tally, rfl⟩
  | cons l rest ih =>
    obtain ⟨tally, behind⟩ :=
      ih { s with tally := s.tally.count (w.known l.features) l.features.length }
    refine ⟨tally, ?_⟩
    rw [List.mapM_cons, bind_apply]
    change ((rest.mapM (weigh w) : Walk Γ _) >>= _) _ = _
    rw [bind_apply, behind]
    rfl

/-- To weigh the links of a node is to ask for them. -/
theorem weighLinks_apply (w : Weighting K) (u : Nat) (loops : Bool) (s : Session Γ) :
    ∃ tally, (weighLinks w u loops : Walk Γ _) s =
      ((Walkable.links s.graph u loops).1.map fun links =>
          (weighed w links, Scalar.sum ((weighed w links).map (·.2))),
        { graph := (Walkable.links s.graph u loops).2, tally }) := by
  have asked : (links u loops : Walk Γ _) s = ((Walkable.links s.graph u loops).1,
      { s with graph := (Walkable.links s.graph u loops).2 }) := rfl
  rw [weighLinks, bind_apply, asked]
  rcases (Walkable.links s.graph u loops).1 with e | shown
  · exact ⟨s.tally, rfl⟩
  · obtain ⟨tally, weighs⟩ :=
      mapM_weigh w shown { s with graph := (Walkable.links s.graph u loops).2 }
    refine ⟨tally, ?_⟩
    change ((shown.mapM (weigh w) : Walk Γ _) >>= _) _ = _
    rw [bind_apply, weighs]
    rfl

/-- The degree of a node of a proof graph is the number of links that it is expanded to. -/
theorem degree_of_expanded {g g' : ProofGraph} {u : Nat} {e : Expansion}
    (done : g.expanded u true = (.ok e, g')) (tally : Tally) :
    (degree u : Walk ProofGraph K) ⟨g, tally⟩ =
      (.ok (Scalar.ofNat (e.links true).length), ⟨g', tally⟩) := by
  rw [degree_apply]
  change (((g.expanded u true).1.map _).map _, (⟨(g.expanded u true).2, tally⟩ : Session _)) = _
  rw [done, e.length_links true]
  rfl

/-- The links of a node of a proof graph are weighed as it is expanded. -/
theorem weighLinks_of_expanded {g g' : ProofGraph} {u : Nat} {e : Expansion} (w : Weighting K)
    (done : g.expanded u true = (.ok e, g')) (tally : Tally) :
    ∃ tally', (weighLinks w u true : Walk ProofGraph _) ⟨g, tally⟩ =
      (.ok (weighed w (e.links true), Scalar.sum ((weighed w (e.links true)).map (·.2))),
        ⟨g', tally'⟩) := by
  obtain ⟨tally', asks⟩ := weighLinks_apply w u true (⟨g, tally⟩ : Session ProofGraph)
  refine ⟨tally', asks.trans ?_⟩
  change (((g.expanded u true).1.map _).map _, (⟨(g.expanded u true).2, tally'⟩ : Session _)) = _
  rw [done]
  rfl

end

variable [Walkable Γ] [KnowsLinks Γ] [LawfulWalkable Γ]

section

variable {K : Type} [Scalar K]

/-- The degree of a node is the number of its links, which are known from then on. -/
theorem degree_shown {u : Nat} {d : K} (done : (degree u : Walk Γ K) s = (.ok d, s')) :
    Grows s.graph s'.graph ∧
      ∃ links, KnowsLinks.known s'.graph u = some links ∧ d = Scalar.ofNat links.length := by
  rw [degree_apply] at done
  obtain ⟨counts, rfl⟩ := Prod.mk.inj done
  obtain ⟨n, found, rfl⟩ := Except.map_eq_ok.1 counts
  obtain ⟨links, known, rfl⟩ := LawfulWalkable.known_degree _ _ _ found
  exact ⟨LawfulWalkable.grows_degree _ _ _, links, known, rfl⟩

/-- The links that a walk weighs are known from then on. -/
theorem weighLinks_shown {w : Weighting K} {u : Nat} {ws : List (Nat × K)} {total : K}
    (done : (weighLinks w u true : Walk Γ _) s = (.ok (ws, total), s')) :
    Grows s.graph s'.graph ∧ total = Scalar.sum (ws.map (·.2)) ∧
      ∃ links, KnowsLinks.known s'.graph u = some links ∧ ws = weighed w links := by
  obtain ⟨tally, asks⟩ := weighLinks_apply w u true s
  rw [asks] at done
  obtain ⟨weighs, rfl⟩ := Prod.mk.inj done
  obtain ⟨links, found, equal⟩ := Except.map_eq_ok.1 weighs
  obtain ⟨rfl, rfl⟩ := Prod.mk.inj equal
  exact ⟨LawfulWalkable.grows_links _ _ _, rfl, links, LawfulWalkable.known_links _ _ _ found, rfl⟩

end

theorem degree_known {u : Nat} {d : ℝ} (done : (degree u : Walk Γ ℝ) s = (.ok d, s')) :
    Grows s.graph s'.graph ∧
      ∃ links, KnowsLinks.known s'.graph u = some links ∧ d = links.length :=
  degree_shown done

theorem weighLinks_known {w : Weighting ℝ} {u : Nat} {ws : List (Nat × ℝ)} {total : ℝ}
    (done : (weighLinks w u true : Walk Γ _) s = (.ok (ws, total), s')) :
    Grows s.graph s'.graph ∧ total = (ws.map (·.2)).sum ∧
      ∃ links, KnowsLinks.known s'.graph u = some links ∧ ws = weighed w links := by
  rw [← Scalar.sum_real]
  exact weighLinks_shown done

end Walk

end ProofWalk
