import ProofWalk.Proofs.Prover.Granted

/-!
# Rounds of power iteration

A round does not depend on the order in which it visits the scores: each node adds its share to the scores
of the next round. Over exact numbers the scores after some rounds are therefore a function of the links
that the graph has given by then.

## Main definitions

* `PowerRound.share`, `PowerRound.next`, `PowerRound.after` — rounds on amounts by node
* `Walk.powerIn` — power iteration that visits scores in given orders
* `Walk.Iterated` — what power iteration leaves behind

## Main results

* `PowerRound.after_congr` — rounds look only at links of nodes that are reached
* `PowerRound.dot_after_one` — rounds lose nothing
* `Walk.powerIn_spec` — the scores of a walk, in whatever order it visits them
* `Walk.powerIn_ends` — it ends if the graph always gives links
-/

namespace ProofWalk

open Finsupp

/-! ### Amounts -/

namespace PowerRound

/-- What a node passes on in a round: all but `alpha` of its amount, along its links, or to itself if they
weigh nothing. -/
noncomputable def share (alpha : ℝ) (links : List (Nat × ℝ)) (u : Nat) (x : ℝ) : ℕ →₀ ℝ :=
  let total := (links.map (·.2)).sum
  if total = 0 then single u ((1 - alpha) * x)
  else (links.map fun l => single l.1 ((1 - alpha) * (l.2 / total) * x)).sum

/-- The amounts after one more round. -/
noncomputable def next (alpha : ℝ) (root : Nat) (out : Nat → List (Nat × ℝ)) (f : ℕ →₀ ℝ) : ℕ →₀ ℝ :=
  single root alpha + f.sum fun u x => share alpha (out u) u x

/-- The amounts after a number of rounds. -/
noncomputable def after (alpha : ℝ) (root : Nat) (out : Nat → List (Nat × ℝ)) (n : Nat) : ℕ →₀ ℝ :=
  (next alpha root out)^[n] (single root 1)

variable {alpha : ℝ} {root : Nat} {out out' : Nat → List (Nat × ℝ)}

theorem after_zero (alpha : ℝ) (root : Nat) (out : Nat → List (Nat × ℝ)) :
    after alpha root out 0 = single root 1 := rfl

theorem after_succ (alpha : ℝ) (root : Nat) (out : Nat → List (Nat × ℝ)) (n : Nat) :
    after alpha root out (n + 1) = next alpha root out (after alpha root out n) :=
  Function.iterate_succ_apply' ..

theorem share_of_weightless {links : List (Nat × ℝ)} (weightless : (links.map (·.2)).sum = 0) (u : Nat)
    (x : ℝ) : share alpha links u x = single u ((1 - alpha) * x) :=
  if_pos weightless

theorem share_of_weight {links : List (Nat × ℝ)} (weight : (links.map (·.2)).sum ≠ 0) (u : Nat) (x : ℝ) :
    share alpha links u x =
      (links.map fun l => single l.1 ((1 - alpha) * (l.2 / (links.map (·.2)).sum) * x)).sum :=
  if_neg weight

theorem share_zero (alpha : ℝ) (links : List (Nat × ℝ)) (u : Nat) : share alpha links u 0 = 0 := by
  simp [share]

/-- A set of nodes that links do not leave. -/
structure Closed (S : Set Nat) (root : Nat) (out : Nat → List (Nat × ℝ)) : Prop where
  root : root ∈ S
  links : ∀ u ∈ S, ∀ l ∈ out u, l.1 ∈ S

variable {S : Set Nat}

/-- The nodes that a node passes on to are those that its links lead to, or the node itself. -/
theorem share_mem (closed : Closed S root out) {u : Nat} (inside : u ∈ S) (x : ℝ) :
    share alpha (out u) u x ∈ supported ℝ ℝ S := by
  unfold share
  simp only
  split
  · exact single_mem_supported ℝ _ inside
  · refine list_sum_mem fun part isPart => ?_
    obtain ⟨l, isLink, rfl⟩ := List.mem_map.1 isPart
    exact single_mem_supported ℝ _ (closed.links u inside l isLink)

theorem next_mem (closed : Closed S root out) {f : ℕ →₀ ℝ} (within : f ∈ supported ℝ ℝ S) :
    next alpha root out f ∈ supported ℝ ℝ S := by
  refine Submodule.add_mem _ (single_mem_supported ℝ _ closed.root) (Submodule.sum_mem _ fun u member => ?_)
  exact share_mem closed ((mem_supported ℝ f).1 within member) _

theorem after_mem (closed : Closed S root out) (n : Nat) :
    after alpha root out n ∈ supported ℝ ℝ S := by
  induction n with
  | zero => exact single_mem_supported ℝ _ closed.root
  | succ n ih =>
    rw [after_succ]
    exact next_mem closed ih

/-- Rounds look only at the links of nodes that can be reached. -/
theorem after_congr (closed : Closed S root out) (same : ∀ u ∈ S, out u = out' u) (n : Nat) :
    after alpha root out n = after alpha root out' n := by
  induction n with
  | zero => rw [after_zero, after_zero]
  | succ n ih =>
    have within : ↑(after alpha root out n).support ⊆ S := (mem_supported ℝ _).1 (after_mem closed n)
    have shares : (after alpha root out n).sum (fun u x => share alpha (out u) u x) =
        (after alpha root out n).sum fun u x => share alpha (out' u) u x :=
      sum_congr fun u member => by rw [same u (within member)]
    rw [after_succ, after_succ, ← ih, next, next, shares]

/-- A node passes on all but `alpha` of its amount. -/
theorem dot_share_one (links : List (Nat × ℝ)) (u : Nat) (x : ℝ) :
    dot (share alpha links u x) (fun _ => 1) = (1 - alpha) * x := by
  by_cases weightless : (links.map (·.2)).sum = 0
  · rw [share_of_weightless weightless, dot_single, mul_one]
  · have given (part : Nat × ℝ → ℝ) (links : List (Nat × ℝ)) :
        dot (links.map fun l => single l.1 (part l)).sum (fun _ => 1) = (links.map part).sum := by
      induction links with
      | nil => rfl
      | cons l rest ih =>
        rw [List.map_cons, List.sum_cons, dot_add, dot_single, mul_one, ih, List.map_cons, List.sum_cons]
    have parts (l : Nat × ℝ) : (1 - alpha) * (l.2 / (links.map (·.2)).sum) * x =
        l.2 * ((1 - alpha) * x / (links.map (·.2)).sum) := by ring
    rw [share_of_weight weightless, given, List.map_congr_left fun l _ => parts l, List.sum_map_mul_right,
      mul_div_cancel₀ _ weightless]

/-- A round takes `alpha` of all amounts and puts `alpha` at the start. -/
theorem dot_next_one (f : ℕ →₀ ℝ) :
    dot (next alpha root out f) (fun _ => 1) = alpha + (1 - alpha) * dot f fun _ => 1 := by
  have passed : dot (f.sum fun u x => share alpha (out u) u x) (fun _ => 1) =
      f.sum fun u x => dot (share alpha (out u) u x) fun _ => 1 :=
    sum_sum_index (fun _ => zero_mul 1) fun _ x y => add_mul x y 1
  rw [next, dot_add, dot_single, mul_one, passed, dot, mul_sum]
  congr 1
  exact sum_congr fun u _ => by rw [dot_share_one, mul_one]

/-- After every round all amounts together are one. -/
theorem dot_after_one (n : Nat) : dot (after alpha root out n) (fun _ => 1) = 1 := by
  induction n with
  | zero => rw [after_zero, dot_single, mul_one]
  | succ n ih =>
    rw [after_succ, dot_next_one, ih]
    ring

end PowerRound

/-! ### Walks -/

namespace Walk

section

variable {Γ K : Type} [Walkable Γ] [Scalar K] (order : Nat → Scores K → List (Nat × K))
  (w : Weighting K)

/-- One round that visits entries in turn. -/
def roundIn (alpha : K) (entries : List (Nat × K)) : Walk Γ (Scores K) := do
  let start ← start
  entries.foldlM (fun next (u, score) => spreadSparse w alpha next u score)
    ((∅ : Scores K).insert start alpha)

/-- The given number of rounds, each of which visits the scores in an order of its own. -/
def roundsIn (alpha : K) : Nat → Scores K → Walk Γ (Scores K)
  | 0, scores => pure scores
  | n + 1, scores => do roundsIn alpha n (← roundIn w alpha (order n scores))

/-- Power iteration that visits scores in given orders. -/
def powerIn (o : WalkOptions K) : Walk Γ (Scores K) := do
  let start ← start
  roundsIn order w o.alpha o.maxDepth ((∅ : Scores K).insert start 1)

/-- Power iteration over a map visits scores in the order of the map. -/
theorem powerSparse_eq (o : WalkOptions K) :
    (powerSparse w o : Walk Γ _) = powerIn (fun _ scores => scores.toList) w o := by
  have rounds (n : Nat) (scores : Scores K) : (roundsSparse w o.alpha n scores : Walk Γ _) =
      roundsIn (fun _ scores => scores.toList) w o.alpha n scores := by
    induction n generalizing scores with
    | zero => rfl
    | succ n ih =>
      rw [roundsSparse, roundsIn]
      exact congrArg (_ >>= ·) (funext ih)
  rw [powerSparse, powerIn]
  exact congrArg (_ >>= ·) (funext fun start => rounds _ _)

theorem Closed.roundIn {P : (α : Type) → Walk Γ α → Prop} {w : Weighting K} (closed : Closed P w)
    (alpha : K) (entries : List (Nat × K)) : P _ (roundIn w alpha entries) := by
  unfold Walk.roundIn
  refine closed.bind closed.start fun root => closed.foldlM (fun next entry => ?_) _ _
  exact closed.spreadSparse alpha next entry.1 entry.2

/-- Power iteration over a map only asks its questions. -/
theorem Closed.powerIn {P : (α : Type) → Walk Γ α → Prop} {w : Weighting K} (closed : Closed P w)
    (order : Nat → Scores K → List (Nat × K)) (o : WalkOptions K) : P _ (powerIn order w o) := by
  have rounds (n : Nat) (scores : Scores K) : P _ (roundsIn order w o.alpha n scores) := by
    induction n generalizing scores with
    | zero => exact closed.pure _
    | succ n ih =>
      rw [roundsIn]
      exact closed.bind (closed.roundIn o.alpha _) ih
  rw [Walk.powerIn]
  exact closed.bind closed.start fun root => rounds _ _

end

/-- Power iteration only asks for links. -/
theorem powerIn_keeps {K : Type} [Scalar K] (order : Nat → Scores K → List (Nat × K)) (w : Weighting K)
    (o : WalkOptions K) : Keeps (powerIn order w o) :=
  (closed_keeps w).powerIn order o

variable {Γ : Type} [Walkable Γ] [KnowsLinks Γ] [LawfulWalkable Γ] {w : Weighting ℝ} {alpha : ℝ}
  {s s' : Session Γ}

/-- The links of the nodes of a graph, none for those that have not been asked for. -/
def outlinks (w : Weighting ℝ) (g : Γ) (u : Nat) : List (Nat × ℝ) := (outOf w g u).getD []

omit [Walkable Γ] [LawfulWalkable Γ] in
theorem outlinks_of_outOf {g : Γ} {u : Nat} {links : List (Nat × ℝ)} (known : outOf w g u = some links) :
    outlinks w g u = links := by
  rw [outlinks, known, Option.getD_some]

omit [Walkable Γ] [LawfulWalkable Γ] in
/-- The weighed links of a node are those that it has given. -/
theorem exists_of_mem_outlinks {g : Γ} {u : Nat} {l : Nat × ℝ} (member : l ∈ outlinks w g u) :
    ∃ links, KnowsLinks.known g u = some links ∧ ∃ link ∈ links, (link.child, w.weight link.features) = l := by
  cases known : KnowsLinks.known g u with
  | none =>
    rw [outlinks, outOf, known] at member
    cases member
  | some links =>
    rw [outlinks, outOf, known] at member
    exact ⟨links, rfl, List.mem_map.1 member⟩

omit [Walkable Γ] [LawfulWalkable Γ] in
theorem outlinks_nonneg (weights : ∀ f, 0 ≤ w.weight f) (g : Γ) (u : Nat) :
    ∀ l ∈ outlinks w g u, 0 ≤ l.2 := by
  intro l member
  obtain ⟨links, -, link, -, rfl⟩ := exists_of_mem_outlinks member
  exact weights link.features

/-- The score of a node moves along the links that it has given. -/
theorem spreadSparse_spec {next next' : Scores ℝ} {u : Nat} {x : ℝ}
    (done : (spreadSparse w alpha next u x : Walk Γ _) s = (.ok next', s')) :
    Grows s.graph s'.graph ∧ ∃ links, outOf w s'.graph u = some links ∧
      next'.toFinsupp = next.toFinsupp + PowerRound.share alpha links u x := by
  obtain ⟨⟨links, total⟩, s₁, weighs, moved⟩ := bind_eq_ok done
  obtain ⟨grows, rfl, shown, known, rfl⟩ := weighLinks_known weighs
  set links := weighed w shown
  have isLinks : outOf w s₁.graph u = some links := by rw [outOf, known]; rfl
  simp only at moved
  split at moved
  · rename_i weightless
    obtain ⟨rfl, rfl⟩ := pure_eq_ok moved
    refine ⟨grows, links, isLinks, ?_⟩
    rw [Scores.toFinsupp_add, PowerRound.share_of_weightless (eq_of_beq weightless)]
  · rename_i total
    obtain ⟨rfl, rfl⟩ := pure_eq_ok moved
    refine ⟨grows, links, isLinks, ?_⟩
    rw [PowerRound.share_of_weight fun zero => total (beq_iff_eq.2 zero)]
    exact Scores.toFinsupp_foldl_add (fun l => (1 - alpha) * (l.2 / (links.map (·.2)).sum) * x) links next

/-- Entries in turn are asked for their links and add their shares. -/
theorem foldlM_spread {entries : List (Nat × ℝ)} {next next' : Scores ℝ}
    (done : (entries.foldlM (fun next (u, score) => spreadSparse w alpha next u score) next :
      Walk Γ _) s = (.ok next', s')) :
    Grows s.graph s'.graph ∧ (∀ entry ∈ entries, (outOf w s'.graph entry.1).isSome) ∧
      ∀ g, Grows s'.graph g → next'.toFinsupp = next.toFinsupp +
        (entries.map fun entry => PowerRound.share alpha (outlinks w g entry.1) entry.1 entry.2).sum := by
  induction entries generalizing next s with
  | nil =>
    obtain ⟨rfl, rfl⟩ := pure_eq_ok done
    exact ⟨.refl _, fun _ member => absurd member List.not_mem_nil, fun g grows => (add_zero _).symm⟩
  | cons entry rest ih =>
    rw [List.foldlM_cons] at done
    obtain ⟨next₁, s₁, first, behind⟩ := bind_eq_ok done
    obtain ⟨grows, links, known, isFirst⟩ := spreadSparse_spec first
    obtain ⟨grows', asked, others⟩ := ih behind
    refine ⟨grows.trans grows', fun other member => ?_, fun g more => ?_⟩
    · rcases List.mem_cons.1 member with rfl | member
      · rw [outOf_of_grows grows' known, Option.isSome_some]
      · exact asked other member
    · have isLinks := outlinks_of_outOf (outOf_of_grows (grows'.trans more) known)
      rw [others g more, isFirst, List.map_cons, List.sum_cons, isLinks, add_assoc]

/-- A round adds the shares of all scores, in whatever order it visits them. -/
theorem roundIn_spec {entries : List (Nat × ℝ)} {scores scores' : Scores ℝ}
    (visits : entries.Perm scores.toList)
    (done : (roundIn w alpha entries : Walk Γ _) s = (.ok scores', s')) :
    Grows s.graph s'.graph ∧
      (∀ u ∈ scores.toFinsupp.support, (outOf w s'.graph u).isSome) ∧ ∀ g, Grows s'.graph g →
        scores'.toFinsupp =
          PowerRound.next alpha (Walkable.start s.graph) (outlinks w g) scores.toFinsupp := by
  obtain ⟨root, s₁, started, spreads⟩ := bind_eq_ok done
  cases started
  obtain ⟨grows, asked, spread⟩ := foldlM_spread spreads
  refine ⟨grows, fun u member => ?_, fun g more => ?_⟩
  · obtain ⟨x, entry⟩ := Scores.exists_mem_toList member
    exact asked (u, x) (visits.mem_iff.2 entry)
  · rw [spread g more, Scores.toFinsupp_insert, Scores.toFinsupp_empty, erase_zero, zero_add,
      PowerRound.next, ← scores.sum_toList fun u => PowerRound.share_zero alpha (outlinks w g u) u]
    exact congrArg _ (visits.map _).sum_eq

/-- A number of rounds. All that has an amount before one of them is asked for its links. -/
theorem roundsIn_spec {order : Nat → Scores ℝ → List (Nat × ℝ)}
    (visits : ∀ n scores, (order n scores).Perm scores.toList) (n : Nat) {scores scores' : Scores ℝ}
    (done : (roundsIn order w alpha n scores : Walk Γ _) s = (.ok scores', s')) :
    Grows s.graph s'.graph ∧
      scores'.toFinsupp =
        (PowerRound.next alpha (Walkable.start s.graph) (outlinks w s'.graph))^[n] scores.toFinsupp ∧
      ∀ m < n, ∀ u ∈ ((PowerRound.next alpha (Walkable.start s.graph) (outlinks w s'.graph))^[m]
        scores.toFinsupp).support, (outOf w s'.graph u).isSome := by
  induction n generalizing scores s with
  | zero =>
    obtain ⟨rfl, rfl⟩ := pure_eq_ok done
    exact ⟨.refl _, rfl, fun m none => absurd none (Nat.not_lt_zero m)⟩
  | succ n ih =>
    obtain ⟨scores₁, s₁, first, behind⟩ := bind_eq_ok done
    obtain ⟨grows, asked, isFirst⟩ := roundIn_spec (visits n scores) first
    obtain ⟨grows', others, asked'⟩ := ih behind
    rw [isFirst _ grows', grows.start] at others asked'
    -- the first round asks for all that it starts from, and what is asked for stays known
    refine ⟨grows.trans grows', others, fun m less u member => ?_⟩
    cases m with
    | zero =>
      obtain ⟨links, known⟩ := Option.isSome_iff_exists.1 (asked u member)
      rw [outOf_of_grows grows' known, Option.isSome_some]
    | succ m => exact asked' m (Nat.lt_of_succ_lt_succ less) u member

/-- Amounts that power iteration has come to on a graph which has given the links of all nodes with an amount
before the last round. -/
structure Iterated (w : Weighting ℝ) (o : WalkOptions ℝ) (g : Γ) (f : ℕ →₀ ℝ) : Prop where
  amounts : f = PowerRound.after o.alpha (Walkable.start g) (outlinks w g) o.maxDepth
  asked : ∀ n < o.maxDepth, ∀ u ∈ (PowerRound.after o.alpha (Walkable.start g) (outlinks w g) n).support,
    (outOf w g u).isSome

/-- Power iteration comes to its amounts in whatever orders it visits scores. -/
theorem powerIn_iterated {order : Nat → Scores ℝ → List (Nat × ℝ)}
    (visits : ∀ n scores, (order n scores).Perm scores.toList) {o : WalkOptions ℝ} {scores : Scores ℝ}
    (done : (powerIn order w o : Walk Γ _) s = (.ok scores, s')) :
    Grows s.graph s'.graph ∧ Iterated w o s'.graph scores.toFinsupp := by
  obtain ⟨root, s₁, started, ran⟩ := bind_eq_ok done
  cases started
  obtain ⟨grows, spec, asked⟩ := roundsIn_spec visits _ ran
  rw [Scores.toFinsupp_insert, Scores.toFinsupp_empty, erase_zero, zero_add, ← grows.start] at spec asked
  exact ⟨grows, spec, asked⟩

/-- The scores of power iteration, in whatever orders it visits them. -/
theorem powerIn_spec {order : Nat → Scores ℝ → List (Nat × ℝ)}
    (visits : ∀ n scores, (order n scores).Perm scores.toList) {o : WalkOptions ℝ} {scores : Scores ℝ}
    (done : (powerIn order w o : Walk Γ _) s = (.ok scores, s')) :
    scores.toFinsupp =
      PowerRound.after o.alpha (Walkable.start s.graph) (outlinks w s'.graph) o.maxDepth := by
  obtain ⟨grows, iterated⟩ := powerIn_iterated visits done
  rw [iterated.amounts, grows.start]

/-! ### Ends -/

/-- All nodes with a score have been shown. -/
def AllMet (g : Γ) (scores : Scores ℝ) : Prop := ∀ u, u ∈ scores → Met g u

omit [LawfulWalkable Γ] in
theorem AllMet.mono {g g' : Γ} (grows : Grows g g') {scores : Scores ℝ} (met : AllMet g scores) :
    AllMet g' scores := fun u member => (met u member).mono grows

omit [LawfulWalkable Γ] in
theorem AllMet.insert {g : Γ} {scores : Scores ℝ} (met : AllMet g scores) {u : Nat} (shown : Met g u)
    (x : ℝ) : AllMet g (scores.insert u x) := by
  intro v member
  rcases Std.TreeMap.mem_insert.1 member with same | member
  · rwa [← Nat.compare_eq_eq.1 same]
  · exact met v member

/-- A node that has been shown gives its links, and its score moves on. -/
theorem spreadSparse_ends (w : Weighting ℝ) (alpha : ℝ) (expands : Expands s.graph) {u : Nat}
    (met : Met s.graph u) (x : ℝ) {next : Scores ℝ} (shown : AllMet s.graph next) :
    ∃ next' s', (spreadSparse w alpha next u x : Walk Γ _) s = (.ok next', s') ∧
      Asked s.graph s'.graph ∧ AllMet s'.graph next' := by
  obtain ⟨⟨links, gives⟩, -⟩ := expands s.graph .none u met
  obtain ⟨tally, asks⟩ := weighLinks_apply w u true s
  rw [gives] at asks
  have known := LawfulWalkable.known_links _ _ _ gives
  have asked : Asked s.graph (Walkable.links s.graph u true).2 := .links .none met
  have shown' := shown.mono asked.grows
  rw [spreadSparse, bind_of_ok asks]
  simp only
  split
  · exact ⟨_, _, rfl, asked, shown'.insert (met.mono asked.grows) _⟩
  · refine ⟨_, _, rfl, asked, ?_⟩
    have targets : ∀ l ∈ weighed w links, Met (Walkable.links s.graph u true).2 l.1 := by
      intro l member
      obtain ⟨link, isLink, rfl⟩ := List.mem_map.1 member
      exact .child known isLink
    generalize Scalar.sum ((weighed w links).map (·.2)) = total
    generalize weighed w links = links at targets
    clear shown
    induction links generalizing next with
    | nil => exact shown'
    | cons l rest ih =>
      exact ih (shown'.insert (targets l (by simp)) _)
        fun other member => targets other (List.mem_cons_of_mem _ member)

theorem roundIn_ends (w : Weighting ℝ) (alpha : ℝ) (expands : Expands s.graph)
    {entries : List (Nat × ℝ)} (met : ∀ entry ∈ entries, Met s.graph entry.1) :
    ∃ scores s', (roundIn w alpha entries : Walk Γ _) s = (.ok scores, s') ∧
      Asked s.graph s'.graph ∧ AllMet s'.graph scores := by
  have spreads : ∀ (s : Session Γ) (next : Scores ℝ), Expands s.graph →
      (∀ entry ∈ entries, Met s.graph entry.1) → AllMet s.graph next →
      ∃ next' s', (entries.foldlM (fun next entry => spreadSparse w alpha next entry.1 entry.2) next :
        Walk Γ _) s = (.ok next', s') ∧ Asked s.graph s'.graph ∧ AllMet s'.graph next' := by
    clear met
    induction entries with
    | nil => exact fun s next _ _ shown => ⟨next, s, rfl, .none, shown⟩
    | cons entry rest ih =>
      intro s next expands met shown
      obtain ⟨next₁, s₁, first, asked, shown₁⟩ :=
        spreadSparse_ends w alpha expands (met entry (by simp)) entry.2 shown
      obtain ⟨next', s', behind, asked', shown'⟩ := ih s₁ next₁ (expands.mono asked)
        (fun other member => (met other (List.mem_cons_of_mem _ member)).mono asked.grows) shown₁
      refine ⟨next', s', ?_, asked.trans asked', shown'⟩
      rw [List.foldlM_cons, bind_of_ok first]
      exact behind
  have none : AllMet s.graph (∅ : Scores ℝ) := fun u member => absurd member Std.TreeMap.not_mem_emptyc
  exact spreads s _ expands met (none.insert .start alpha)

/-- Power iteration ends on every graph that always gives links. -/
theorem powerIn_ends {order : Nat → Scores ℝ → List (Nat × ℝ)}
    (visits : ∀ n scores, (order n scores).Perm scores.toList) (w : Weighting ℝ) (o : WalkOptions ℝ)
    (expands : Expands s.graph) :
    ∃ scores s', (powerIn order w o : Walk Γ _) s = (.ok scores, s') ∧ Asked s.graph s'.graph := by
  have rounds (n : Nat) : ∀ (s : Session Γ) (scores : Scores ℝ), Expands s.graph →
      AllMet s.graph scores →
      ∃ scores' s', (roundsIn order w o.alpha n scores : Walk Γ _) s = (.ok scores', s') ∧
        Asked s.graph s'.graph := by
    induction n with
    | zero => exact fun s scores _ _ => ⟨scores, s, rfl, .none⟩
    | succ n ih =>
      intro s scores expands shown
      have met : ∀ entry ∈ order n scores, Met s.graph entry.1 := by
        intro entry member
        have found := Std.TreeMap.mem_toList_iff_getElem?_eq_some.1 ((visits n scores).mem_iff.1 member)
        refine shown _ (Std.TreeMap.mem_iff_isSome_getElem?.2 ?_)
        rw [found]
        rfl
      obtain ⟨scores₁, s₁, first, asked, shown₁⟩ := roundIn_ends w o.alpha expands met
      obtain ⟨scores', s', behind, asked'⟩ := ih s₁ scores₁ (expands.mono asked) shown₁
      refine ⟨scores', s', ?_, asked.trans asked'⟩
      rw [roundsIn, bind_of_ok first]
      exact behind
  have none : AllMet s.graph (∅ : Scores ℝ) := fun u member => absurd member Std.TreeMap.not_mem_emptyc
  exact rounds o.maxDepth s _ expands (none.insert .start 1)

end Walk

end ProofWalk
