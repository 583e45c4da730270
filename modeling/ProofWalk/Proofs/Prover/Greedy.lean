import ProofWalk.Proofs.Learning.Work

/-!
# The order of the walk by priority

Entries of the queue are not changed when the residual of their node does: an entry that is out of date
is passed over, and a node whose residual has changed gets an entry more. So the queue holds a current
entry for every node above the threshold, and the first current one has the largest residual per link
of all nodes.

## Main definitions

* `Walk.Heads` — the heads of the loop that a walk comes to
* `DenseMass.perLink` — the residual per link of a node
* `Stand.Waits` — every node above the threshold has a current entry in the queue

## Main results

* `Walk.Heads.pushByPriority_eq` — the walk goes on from each of its heads
* `Stand.Waits.turn` — a turn leaves no node above the threshold without a current entry
* `Stand.Waits.largest` — the first current entry above the threshold is that of the largest node
* `Walk.takes_largest_first` — the order in which nodes are pushed, and when the walk ends
-/

namespace ProofWalk

/-! ### The heads of the loop -/

section

variable {Γ K : Type} [Walkable Γ] [Scalar K]

namespace Walk

/-- The heads of the loop that a walk from a session comes to, by the number of turns. -/
inductive Heads (w : Weighting K) (o : WalkOptions K) (bound : Nat) (s : Session Γ) :
    Nat → Stand K → Session Γ → Prop
  | start {d : K} {s' : Session Γ} (counts : degree (Walkable.start s.graph) s = (.ok d, s')) :
      Heads w o bound s 0
        { mass := .seed (Walkable.start s.graph)
          queue := (∅ : PushQueue K).push { score := 1 / d, node := Walkable.start s.graph }
          accepted := 0 } s'
  | turn {n : Nat} {p p' : Stand K} {s₁ s₂ : Session Γ} {head : QueueEntry K} {q : PushQueue K}
      (before : Heads w o bound s n p s₁) (more : p.accepted < Scalar.ceil (1 / o.epsilon))
      (popped : p.queue.pop? = some (head, q)) (turns : p.turn w o bound head q s₁ = (.ok p', s₂)) :
      Heads w o bound s (n + 1) p' s₂

variable {w : Weighting K} {o : WalkOptions K} {bound n : Nat} {s s₁ s' : Session Γ} {p : Stand K}
  {m : DenseMass K}

/-- The walk goes on from each of its heads. -/
theorem Heads.pushByPriority_eq (heads : Heads w o bound s n p s') (within : n ≤ bound) :
    pushByPriority w o bound s =
      serve w o bound (bound - n) (Scalar.ceil (1 / o.epsilon) - p.accepted) p.mass p.queue s' := by
  induction heads with
  | start counts =>
    change (degree (Walkable.start s.graph) >>= _) s = _
    rw [bind_of_ok counts]
    rfl
  | @turn n p p' s₁ s₂ head q _ more popped turns ih =>
    obtain ⟨limit, left⟩ : ∃ limit, bound - n = limit + 1 := ⟨bound - n - 1, by omega⟩
    have less : bound - (n + 1) = limit := by omega
    rw [ih (by omega), left, serve_of_entry w o bound limit more popped, bind_of_ok turns, less]

theorem Heads.accepted_le (heads : Heads w o bound s n p s') :
    p.accepted ≤ Scalar.ceil (1 / o.epsilon) := by
  cases heads with
  | start => exact Nat.zero_le _
  | turn _ more _ turns => exact (Stand.accepted_turn_le turns).trans more

/-- Where the walk ends, it has accepted all the entries it may, or its queue is empty. -/
theorem Heads.exists_of_serve {limit : Nat} (heads : Heads w o bound s n p s₁)
    (done : serve w o bound limit (Scalar.ceil (1 / o.epsilon) - p.accepted) p.mass p.queue s₁ =
      (.ok m, s')) :
    ∃ n' p', Heads w o bound s n' p' s' ∧ p'.mass = m ∧
      (p'.accepted = Scalar.ceil (1 / o.epsilon) ∨ p'.queue.pop? = none) := by
  induction limit generalizing n p s₁ with
  | zero =>
    rw [serve] at done
    cases done
  | succ limit ih =>
    obtain all | more := heads.accepted_le.eq_or_lt
    · rw [all, Nat.sub_self, serve] at done
      · obtain ⟨rfl, rfl⟩ := pure_eq_ok done
        exact ⟨n, p, heads, rfl, .inl all⟩
      · exact Nat.succ_ne_zero _
    cases popped : p.queue.pop? with
    | none =>
      rw [serve_of_empty w o bound limit more popped] at done
      obtain ⟨rfl, rfl⟩ := pure_eq_ok done
      exact ⟨n, p, heads, rfl, .inr popped⟩
    | some entry =>
      obtain ⟨head, q⟩ := entry
      rw [serve_of_entry w o bound limit more popped] at done
      obtain ⟨p', s₂, turns, rest⟩ := bind_eq_ok done
      exact ih (heads.turn more popped turns) rest

theorem exists_heads_of_pushByPriority (done : pushByPriority w o bound s = (.ok m, s')) :
    ∃ n p, Heads w o bound s n p s' ∧ p.mass = m ∧
      (p.accepted = Scalar.ceil (1 / o.epsilon) ∨ p.queue.pop? = none) := by
  obtain ⟨d, s₁, counts, serves⟩ :=
    bind_eq_ok (show (degree (Walkable.start s.graph) >>= _) s = (.ok m, s') from done)
  exact (Heads.start counts).exists_of_serve serves

end Walk

end

/-! ### Nodes above the threshold -/

/-- The residual of a node for each of the links that the graph has shown. -/
noncomputable def DenseMass.perLink {Γ : Type} [KnowsLinks Γ] (m : DenseMass ℝ) (g : Γ) (v : Nat) : ℝ :=
  entryAt m.residual v / (((KnowsLinks.known g v).map List.length).getD 0 : ℕ)

namespace DenseMass

section

variable {Γ : Type} [KnowsLinks Γ] {g g' : Γ} {m m' : DenseMass ℝ} {v : Nat}

theorem perLink_of_known {links : List Link} (known : KnowsLinks.known g v = some links) :
    m.perLink g v = entryAt m.residual v / links.length := by
  rw [perLink, known]
  rfl

theorem perLink_of_eq_zero (none : entryAt m.residual v = 0) : m.perLink g v = 0 := by
  rw [perLink, none, zero_div]

theorem perLink_congr (same : entryAt m'.residual v = entryAt m.residual v) :
    m'.perLink g v = m.perLink g v := by
  rw [perLink, same, perLink]

/-- A graph that knows more tells nothing new of nodes whose links it has shown. -/
theorem perLink_of_grows [Walkable Γ] (grows : Grows g g')
    (shown : entryAt m.residual v ≠ 0 → ∃ links, KnowsLinks.known g v = some links) :
    m.perLink g' v = m.perLink g v := by
  by_cases none : entryAt m.residual v = 0
  · rw [perLink_of_eq_zero none, perLink_of_eq_zero none]
  · obtain ⟨links, known⟩ := shown none
    rw [perLink_of_known (grows.known v links known), perLink_of_known known]

end

variable {o : WalkOptions ℝ} {u v : Nat} {links : List (Nat × ℝ)} {total degree : ℝ}

theorem residual_absorb (m : DenseMass ℝ) (u v : Nat) :
    entryAt (m.absorb u).residual v = if v = u then 0 else entryAt m.residual v :=
  entryAt_putAt _ _ _ _

/-- Pushing a node in a row changes the residual of the node and of those its links lead to. -/
theorem residual_drainAll {limit : Nat} {m m' : DenseMass ℝ}
    (drains : m.drainAll o degree u links total limit = some m') (other : v ∉ u :: links.map (·.1)) :
    entryAt m'.residual v = entryAt m.residual v := by
  obtain ⟨isOther, untouched⟩ := not_or.1 (mt List.mem_cons.2 other)
  have push (m : DenseMass ℝ) :
      entryAt (m.pushAll o u links total (entryAt m.residual u)).residual v = entryAt m.residual v := by
    have same : (m.ledger.push o u links total).residual v = m.ledger.residual v :=
      Ledger.residual_push_of_ne _ isOther fun l member leads =>
        absurd (List.mem_map.2 ⟨l, member, leads⟩) untouched
    rw [← ledger_pushAll] at same
    exact same
  induction limit generalizing m with
  | zero => cases drains
  | succ limit ih =>
    rw [drainAll] at drains
    split at drains
    · exact (ih drains).trans (push m)
    · cases drains
      rfl

end DenseMass

section

variable {Γ : Type} [KnowsLinks Γ] {w : Weighting ℝ} {o : WalkOptions ℝ} {bound : Nat} {s s' : Session Γ}
  {p p' : Stand ℝ} {head : QueueEntry ℝ} {q q' : PushQueue ℝ} {g g' : Γ}

/-- Nodes with residual have shown their links, and so have the nodes in the queue; a node with more residual
per link than the threshold has a current entry there. -/
structure Stand.Waits (o : WalkOptions ℝ) (p : Stand ℝ) (g : Γ) : Prop where
  shown : ∀ v, entryAt p.mass.residual v ≠ 0 → ∃ links, KnowsLinks.known g v = some links
  known : ∀ e ∈ p.queue, ∃ links, KnowsLinks.known g e.node = some links
  waiting : ∀ v, o.epsilon < p.mass.perLink g v → { score := p.mass.perLink g v, node := v } ∈ p.queue

namespace Stand.Waits

/-- If the first entry is a current one above the threshold, no node has more residual per link. -/
theorem largest (waits : p.Waits o g) (popped : p.queue.pop? = some (head, q))
    (above : o.epsilon < head.score) (v : Nat) : p.mass.perLink g v ≤ head.score := by
  -- what is below the threshold is below the score, and all else waits behind the first entry
  by_cases low : p.mass.perLink g v ≤ o.epsilon
  · exact low.trans above.le
  · exact PushQueue.score_le_of_pop? popped (waits.waiting v (lt_of_not_ge low))

/-- An entry that is passed over, because it is out of date or below the threshold, is no current entry
above the threshold. -/
theorem pass (waits : p.Waits o g) (popped : p.queue.pop? = some (head, q))
    (passed : p.mass.perLink g head.node = head.score → head.score ≤ o.epsilon) (accepted : Nat) :
    Waits o { p with queue := q, accepted } g := by
  refine ⟨waits.shown, fun e member => waits.known e (PushQueue.mem_of_pop? popped member),
    fun v above => ?_⟩
  -- the entry that is taken off is none of those that have to wait
  refine PushQueue.mem_of_pop?_of_ne popped (waits.waiting v above) fun same => ?_
  subst same
  exact absurd above (passed rfl).not_gt

/-- A node that settles all it has does not wait any more. -/
theorem absorb (waits : p.Waits o g) (epsilon : 0 < o.epsilon) (popped : p.queue.pop? = some (head, q))
    (accepted : Nat) : Waits o { mass := p.mass.absorb head.node, queue := q, accepted } g := by
  refine ⟨fun v some => ?_, fun e member => waits.known e (PushQueue.mem_of_pop? popped member),
    fun v above => ?_⟩
  · refine waits.shown v fun none => some ?_
    simp only [DenseMass.residual_absorb, none, ite_self]
  · by_cases same : v = head.node
    · have none : entryAt (p.mass.absorb head.node).residual v = 0 := by
        rw [DenseMass.residual_absorb, if_pos same]
      rw [DenseMass.perLink_of_eq_zero none] at above
      exact absurd above epsilon.not_gt
    · have kept : (p.mass.absorb head.node).perLink g v = p.mass.perLink g v :=
        DenseMass.perLink_congr (by rw [DenseMass.residual_absorb, if_neg same])
      rw [kept] at above ⊢
      exact PushQueue.mem_of_pop?_of_ne popped (waits.waiting v above) fun isHead =>
        same (congrArg QueueEntry.node isHead)

variable [Walkable Γ]

theorem mono (waits : p.Waits o g) (grows : Grows g g') : p.Waits o g' := by
  have more : ∀ v, (∃ links, KnowsLinks.known g v = some links) →
      ∃ links, KnowsLinks.known g' v = some links := fun v ⟨links, known⟩ =>
    ⟨links, grows.known v links known⟩
  refine ⟨fun v some => more v (waits.shown v some), fun e member => more _ (waits.known e member),
    fun v above => ?_⟩
  rw [DenseMass.perLink_of_grows grows (waits.shown v)] at above ⊢
  exact waits.waiting v above

end Stand.Waits

variable [Walkable Γ] [LawfulWalkable Γ]

/-- Making entries makes a current one for each of the nodes, and keeps those that wait. -/
theorem Walk.enqueue_spec {m : DenseMass ℝ} {nodes : List Nat}
    (done : (enqueue m q nodes : Walk Γ _) s = (.ok q', s')) :
    Grows s.graph s'.graph ∧ (∀ e ∈ q, e ∈ q') ∧
      (∀ e ∈ q', e ∈ q ∨ ∃ links, KnowsLinks.known s'.graph e.node = some links) ∧
      ∀ v ∈ nodes, (∃ links, KnowsLinks.known s'.graph v = some links) ∧
        { score := m.perLink s'.graph v, node := v } ∈ q' := by
  unfold enqueue at done
  induction nodes generalizing s q with
  | nil =>
    obtain ⟨rfl, rfl⟩ := pure_eq_ok done
    exact ⟨.refl _, fun e member => member, fun e member => .inl member, fun v member => by cases member⟩
  | cons v rest ih =>
    rw [List.foldlM_cons] at done
    obtain ⟨q₁, s₁, first, others⟩ := bind_eq_ok done
    obtain ⟨d, s₂, counts, pushed⟩ := bind_eq_ok first
    obtain ⟨rfl, rfl⟩ := pure_eq_ok pushed
    obtain ⟨grows, links, known, rfl⟩ := degree_known counts
    obtain ⟨grows', keeps, origin, enters⟩ := ih others
    have known' := grows'.known _ _ known
    refine ⟨grows.trans grows', fun e member => keeps e (PushQueue.mem_push_iff.2 (.inr member)), ?_, ?_⟩
    · intro e member
      obtain before | shown := origin e member
      · obtain rfl | before := PushQueue.mem_push_iff.1 before
        · exact .inr ⟨links, known'⟩
        · exact .inl before
      · exact .inr shown
    · intro v' member
      obtain rfl | member := List.mem_cons.1 member
      · refine ⟨⟨links, known'⟩, ?_⟩
        rw [DenseMass.perLink_of_known known']
        exact keeps _ (PushQueue.mem_push_iff.2 (.inl rfl))
      · exact enters v' member

namespace Stand.Waits

/-- When a node is pushed, the nodes whose residual changes get current entries, and the entries of the
others stay. -/
theorem push (waits : p.Waits o s.graph) (popped : p.queue.pop? = some (head, q))
    {links : List (Nat × ℝ)} {total degree : ℝ} {m : DenseMass ℝ}
    (drains : p.mass.drainAll o degree head.node links total bound = some m)
    (enters : (Walk.enqueue m q (distinctSorted (head.node :: links.map (·.1))) : Walk Γ _) s =
      (.ok q', s')) (accepted : Nat) : Waits o { mass := m, queue := q', accepted } s'.graph := by
  obtain ⟨grows, keeps, origin, current⟩ := Walk.enqueue_spec enters
  have waits' := waits.mono grows
  -- the residual changes at the node and where its links lead, and all of these are asked again
  have touched (v : Nat) (member : v ∈ head.node :: links.map (·.1)) :=
    current v (mem_distinctSorted_of_mem member)
  refine ⟨fun v some => ?_, fun e member => ?_, fun v above => ?_⟩
  · by_cases member : v ∈ head.node :: links.map (·.1)
    · exact (touched v member).1
    · rw [DenseMass.residual_drainAll drains member] at some
      exact waits'.shown v some
  · obtain before | shown := origin e member
    · exact waits'.known e (PushQueue.mem_of_pop? popped before)
    · exact shown
  · by_cases member : v ∈ head.node :: links.map (·.1)
    · exact (touched v member).2
    · have kept : m.perLink s'.graph v = p.mass.perLink s'.graph v :=
        DenseMass.perLink_congr (DenseMass.residual_drainAll drains member)
      change { score := m.perLink s'.graph v, node := v } ∈ q'
      change o.epsilon < m.perLink s'.graph v at above
      rw [kept] at above ⊢
      refine keeps _ (PushQueue.mem_of_pop?_of_ne popped (waits'.waiting v above) fun isHead => ?_)
      rw [← isHead] at member
      exact member List.mem_cons_self

/-- The score of an entry is compared with the residual per link of its node. -/
theorem perLink_eq (waits : p.Waits o s.graph) (popped : p.queue.pop? = some (head, q)) {degree : ℝ}
    (counts : Walk.degree head.node s = (.ok degree, s')) :
    p.mass.perLink s.graph head.node = entryAt p.mass.residual head.node / degree := by
  obtain ⟨grows, links, known, rfl⟩ := Walk.degree_known counts
  obtain ⟨links', known'⟩ := waits.known head (PushQueue.pop?_eq_some popped).1
  rw [grows.known _ _ known'] at known
  cases known
  exact DenseMass.perLink_of_known known'

/-- A turn leaves no node above the threshold without a current entry. -/
theorem turn (waits : p.Waits o s.graph) (epsilon : 0 < o.epsilon)
    (popped : p.queue.pop? = some (head, q)) (turns : p.turn w o bound head q s = (.ok p', s')) :
    p'.Waits o s'.graph := by
  cases turns_of_turn turns with
  | stale counts stale =>
    have differs : p.mass.perLink s.graph head.node ≠ head.score := fun same =>
      stale (beq_iff_eq.2 ((waits.perLink_eq popped counts).symm.trans same))
    exact (waits.pass popped (fun same => absurd same differs) _).mono (Walk.degree_known counts).1
  | low counts _ low =>
    exact (waits.pass popped (fun _ => low) _).mono (Walk.degree_known counts).1
  | absorb counts _ _ weighs _ =>
    exact (waits.absorb epsilon popped _).mono
      ((Walk.degree_known counts).1.trans (Walk.weighLinks_known weighs).1)
  | push counts _ _ weighs _ drains enters =>
    have grows := (Walk.degree_known counts).1.trans (Walk.weighLinks_known weighs).1
    exact (waits.mono grows).push popped drains enters _

/-- A turn that moves mass has accepted its entry: the entry is current and above the threshold. -/
theorem accepts (waits : p.Waits o s.graph) (popped : p.queue.pop? = some (head, q))
    (turns : p.turn w o bound head q s = (.ok p', s')) (moves : p'.mass ≠ p.mass) :
    p.mass.perLink s.graph head.node = head.score ∧ o.epsilon < head.score ∧
      p'.accepted = p.accepted + 1 := by
  cases turns_of_turn turns with
  | stale => exact absurd rfl moves
  | low => exact absurd rfl moves
  | absorb counts current above =>
    exact ⟨(waits.perLink_eq popped counts).trans (beq_iff_eq.1 current), lt_of_not_ge above, rfl⟩
  | push counts current above =>
    exact ⟨(waits.perLink_eq popped counts).trans (beq_iff_eq.1 current), lt_of_not_ge above, rfl⟩

end Stand.Waits

/-- No node above the threshold is without a current entry at any head of the loop. -/
theorem Walk.Heads.waits {n : Nat} (epsilon : 0 < o.epsilon) (heads : Walk.Heads w o bound s n p s') :
    p.Waits o s'.graph := by
  induction heads with
  | start counts =>
    obtain ⟨-, links, known, rfl⟩ := Walk.degree_known counts
    have residual (v : Nat) : entryAt (DenseMass.seed (Walkable.start s.graph) : DenseMass ℝ).residual v =
        if v = Walkable.start s.graph then 1 else 0 := entryAt_putAt _ _ _ _
    refine ⟨fun v some => ?_, fun e member => ?_, fun v above => ?_⟩
    · by_cases same : v = Walkable.start s.graph
      · exact ⟨links, same ▸ known⟩
      · exact absurd ((residual v).trans (if_neg same)) some
    · obtain rfl | member := PushQueue.mem_push_iff.1 member
      · exact ⟨links, known⟩
      · exact absurd member Std.TreeMap.not_mem_emptyc
    · by_cases same : v = Walkable.start s.graph
      · subst same
        rw [DenseMass.perLink_of_known known, residual, if_pos rfl]
        exact PushQueue.mem_push_iff.2 (.inl rfl)
      · rw [DenseMass.perLink_of_eq_zero ((residual v).trans (if_neg same))] at above
        exact absurd above epsilon.not_gt
  | turn _ _ popped turns ih => exact ih.turn epsilon popped turns

end

/-! ### The walk -/

/-- At every head of the loop of the walk by priority every node with more residual per link than the
threshold has a current entry in the queue. A current entry above the threshold is accepted only for a node
with the largest residual per link of all nodes, and mass is moved only for such entries. When the walk
returns, it has accepted as many current entries as it may, or no node is above the threshold. -/
theorem Walk.takes_largest_first (w : Weighting ℝ) (o : WalkOptions ℝ) (epsilon : 0 < o.epsilon)
    (bound : Nat) (s : Session ProofGraph) :
    (∀ n p s', Heads w o bound s n p s' →
      (n ≤ bound → pushByPriority w o bound s =
        serve w o bound (bound - n) (⌈1 / o.epsilon⌉₊ - p.accepted) p.mass p.queue s') ∧
      p.Waits o s'.graph ∧
      ∀ head q, p.queue.pop? = some (head, q) →
        (p.mass.perLink s'.graph head.node = head.score → o.epsilon < head.score →
          ∀ v, p.mass.perLink s'.graph v ≤ p.mass.perLink s'.graph head.node) ∧
        ∀ p' s'', p.turn w o bound head q s' = (.ok p', s'') → p'.mass ≠ p.mass →
          p.mass.perLink s'.graph head.node = head.score ∧ o.epsilon < head.score ∧
            p'.accepted = p.accepted + 1) ∧
    ∀ m s', pushByPriority w o bound s = (.ok m, s') →
      ∃ n p, Heads w o bound s n p s' ∧ p.mass = m ∧
        (p.accepted = ⌈1 / o.epsilon⌉₊ ∨ ∀ v, m.perLink s'.graph v ≤ o.epsilon) := by
  constructor
  · intro n p s' heads
    have waits := heads.waits epsilon
    refine ⟨heads.pushByPriority_eq, waits, fun head q popped => ⟨fun current above v => ?_, ?_⟩⟩
    · rw [current]
      exact waits.largest popped above v
    · exact fun p' s'' turns moves => waits.accepts popped turns moves
  · intro m s' done
    obtain ⟨n, p, heads, rfl, all | empty⟩ := exists_heads_of_pushByPriority done
    · exact ⟨n, p, heads, rfl, .inl all⟩
    · refine ⟨n, p, heads, rfl, .inr fun v => ?_⟩
      by_contra above
      exact PushQueue.not_mem_of_pop?_eq_none empty ((heads.waits epsilon).waiting v (lt_of_not_ge above))

/-- The walk over the graph of a fact ends at a head of its loop, after ten entries or with no node above
the threshold. -/
theorem Walk.takes_largest_first_fact :
    ∃ g, ProofGraph.new .cachingId ProofGraph.askFact ProofGraph.factProgram [] .empty = .ok g ∧
      0 < tenths.epsilon ∧ ∃ bound m s',
        pushByPriority equalWeights tenths bound (Prover.session g) = (.ok m, s') ∧
        ∃ n p, Heads equalWeights tenths bound (Prover.session g) n p s' ∧ p.mass = m ∧
          (p.accepted = ⌈1 / tenths.epsilon⌉₊ ∨ ∀ v, m.perLink s'.graph v ≤ tenths.epsilon) := by
  obtain ⟨g, made, isCode, isStart⟩ := ProofGraph.exists_factGraph .cachingId .empty
  obtain ⟨g₁, g₂, e₁, e₂, graphs⟩ :=
    ProofGraph.exists_factGraphs FeatureTable.lawful_empty ⟨by decide, by decide⟩ made isCode isStart
  have alpha : 0 < tenths.alpha := by norm_num [tenths]
  have epsilon : 0 < tenths.epsilon := by norm_num [tenths]
  obtain ⟨enough, ends⟩ := pushByPriority_finishes check_tenths alpha (fun _ => zero_le_one)
    (s := Prover.session g) (w := equalWeights) graphs.expands
  obtain ⟨m, done⟩ := ends enough le_rfl
  exact ⟨g, made, epsilon, enough, m, _, Prod.ext done rfl,
    (takes_largest_first equalWeights tenths epsilon enough (Prover.session g)).2 m _ (Prod.ext done rfl)⟩

end ProofWalk
