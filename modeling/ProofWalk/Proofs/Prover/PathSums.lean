import ProofWalk.Proofs.Grounding.Decoding
import ProofWalk.Proofs.Learning.Balance
import ProofWalk.Proofs.ProofGraph.Unfolding
import ProofWalk.Proofs.Prover.Gains

/-!
# Path sums

A depth-first walk passes along every path that does not come back to the start, and visits a node that
is met on several paths once for each of them. Its visits are therefore the paths from the start, in order:
each leaves at its end what the path has carried there less what is passed on. Over exact numbers what
is left is a product along the path, and the score of a node is the sum over all paths that lead to it.

What a graph shows as it is asked for links is the same from then on. So the paths are those of the
graph that the walk leaves behind.

## Main definitions

* `Branching` — what a depth-first walk sees of a graph
* `Branching.Leads` — the paths that are followed
* `Branching.product`, `Branching.kept` — what a path carries to its end, and how much of it stays there
* `Walk.branching` — what it sees of a proof graph
* `Walk.Ends` — how a walk that asks for links ends
* `SumsPaths` — scores are sums over paths

## Main results

* `Branching.mem_paths`, `Branching.sum_visits` — visits are paths, and lose nothing
* `Walk.trail_ends` — what a walk leaves behind on its way
* `Prover.dfs_sums_paths` — the scores of the depth-first prover
-/

namespace ProofWalk

/-! ### Paths -/

/-- What a depth-first walk sees of a graph: where it starts, where the proof is complete, and the links
of the nodes with their weights. -/
structure Branching where
  root : Nat
  completed : Nat → Bool
  out : Nat → List (Nat × ℝ)

/-- A link on a path: the node that it leaves, its place among the links of that node, the node that it
leads to, and its weight. -/
structure PathStep where
  source : Nat
  place : Nat
  target : Nat
  weight : ℝ

namespace Branching

variable (b : Branching)

/-- The weight of all links of a node. -/
def total (u : Nat) : ℝ := ((b.out u).map (·.2)).sum

/-- The weight of the links of a node that lead back to the start. -/
def back (u : Nat) : ℝ := (((b.out u).filter fun l => decide (l.1 = b.root)).map (·.2)).sum

/-- A path leads from one node to another. It does not come back to the start, and passes on only where the
proof is not complete and links weigh something. -/
inductive Leads : Nat → List PathStep → Nat → Prop
  | here (u : Nat) : Leads u [] u
  | step {u place x : Nat} {l : Nat × ℝ} {path : List PathStep} (goesOn : b.completed u = false)
      (weighs : b.total u ≠ 0) (link : (b.out u)[place]? = some l) (away : l.1 ≠ b.root)
      (rest : Leads l.1 path x) : Leads u (⟨u, place, l.1, l.2⟩ :: path) x

/-- What a path carries to its end: the product of the shares that its links have in the weight of all
links of their nodes. -/
noncomputable def product (path : List PathStep) : ℝ :=
  (path.map fun step => step.weight / b.total step.source).prod

/-- The share of what a path carries that stays at its end: all of it where nothing is passed on, else
what would go back to the start. -/
noncomputable def kept (depth : Nat) (path : List PathStep) (x : Nat) : ℝ :=
  if b.completed x = true ∨ path.length = depth ∨ b.total x = 0 then 1 else b.back x / b.total x

/-- The paths that take a link of a node, given with its place, and go on along one that begins behind it. A
link back to the start is not taken. -/
noncomputable def along (behind : Nat → List (List PathStep × Nat)) (u : Nat) (link : (Nat × ℝ) × Nat) :
    List (List PathStep × Nat) :=
  if link.1.1 = b.root then []
  else (behind link.1.1).map fun found => (⟨u, link.2, link.1.1, link.1.2⟩ :: found.1, found.2)

/-- The paths of at most so many links from a node, with their ends, in the order of a depth-first walk. -/
noncomputable def paths : Nat → Nat → List (List PathStep × Nat)
  | 0, u => [([], u)]
  | depth + 1, u =>
    ([], u) :: if b.completed u = true ∨ b.total u = 0 then []
      else (b.out u).zipIdx.flatMap (along b (paths depth) u)

/-- What is left at the ends of the paths from a node that is given an amount. -/
noncomputable def visits (depth u : Nat) (given : ℝ) : List (Nat × ℝ) :=
  (b.paths depth u).map fun found => (found.2, given * b.product found.1 * b.kept depth found.1 found.2)

variable {b} {depth u x : Nat} {path : List PathStep}

theorem paths_of_stop (stops : b.completed u = true ∨ b.total u = 0) (depth : Nat) :
    b.paths depth u = [([], u)] := by
  cases depth with
  | zero => rfl
  | succ depth => rw [paths, if_pos stops]

theorem paths_succ (goesOn : b.completed u = false) (weighs : b.total u ≠ 0) (depth : Nat) :
    b.paths (depth + 1) u =
      ([], u) :: (b.out u).zipIdx.flatMap (b.along (b.paths depth) u) := by
  have passes : ¬(b.completed u = true ∨ b.total u = 0) := by
    rintro (stops | weightless)
    · rw [goesOn] at stops
      cases stops
    · exact weighs weightless
  rw [paths, if_neg passes]

theorem mem_along {behind : Nat → List (List PathStep × Nat)} {link : (Nat × ℝ) × Nat} :
    (path, x) ∈ b.along behind u link ↔ link.1.1 ≠ b.root ∧ ∃ rest, (rest, x) ∈ behind link.1.1 ∧
      path = ⟨u, link.2, link.1.1, link.1.2⟩ :: rest := by
  unfold along
  split
  · rename_i isBack
    exact ⟨fun member => (by cases member), fun away => absurd isBack away.1⟩
  · rename_i away
    rw [List.mem_map]
    constructor
    · rintro ⟨⟨rest, y⟩, found, equal⟩
      obtain ⟨rfl, rfl⟩ := Prod.mk.inj equal
      exact ⟨away, rest, found, rfl⟩
    · rintro ⟨-, rest, found, rfl⟩
      exact ⟨(rest, x), found, rfl⟩

theorem here_mem_paths (depth u : Nat) : ([], u) ∈ b.paths depth u := by
  cases depth with
  | zero => exact List.mem_singleton_self _
  | succ depth => exact List.mem_cons_self ..

/-- The paths that are listed are those that lead somewhere and are not too long. -/
theorem mem_paths : (path, x) ∈ b.paths depth u ↔ b.Leads u path x ∧ path.length ≤ depth := by
  -- on the depth: a path is empty, or a link with a path behind it that is shorter by one
  induction depth generalizing u path with
  | zero =>
    rw [paths, List.mem_singleton, Prod.mk.injEq]
    constructor
    · rintro ⟨rfl, rfl⟩
      exact ⟨.here _, le_rfl⟩
    · rintro ⟨leads, short⟩
      obtain rfl := List.length_eq_zero_iff.1 (Nat.le_zero.1 short)
      cases leads
      exact ⟨rfl, rfl⟩
  | succ depth ih =>
    constructor
    · intro member
      by_cases stops : b.completed u = true ∨ b.total u = 0
      · rw [paths_of_stop stops, List.mem_singleton, Prod.mk.injEq] at member
        obtain ⟨rfl, rfl⟩ := member
        exact ⟨.here _, Nat.zero_le _⟩
      · rw [not_or, Bool.not_eq_true] at stops
        rw [paths_succ stops.1 stops.2] at member
        rcases List.mem_cons.1 member with isHere | onward
        · obtain ⟨rfl, rfl⟩ := Prod.mk.inj isHere
          exact ⟨.here _, Nat.zero_le _⟩
        · obtain ⟨⟨l, place⟩, linked, behind⟩ := List.mem_flatMap.1 onward
          obtain ⟨away, rest, found, rfl⟩ := mem_along.1 behind
          obtain ⟨leads, short⟩ := ih.1 found
          exact ⟨.step stops.1 stops.2 (List.mem_zipIdx_iff_getElem?.1 linked) away leads,
            Nat.succ_le_succ short⟩
    · rintro ⟨leads, short⟩
      cases leads with
      | here => exact here_mem_paths _ _
      | @step _ place _ l rest goesOn weighs link away leads =>
        rw [paths_succ goesOn weighs]
        refine List.mem_cons_of_mem _ (List.mem_flatMap.2 ⟨(l, place), ?_, ?_⟩)
        · exact List.mem_zipIdx_iff_getElem?.2 link
        · exact mem_along.2 ⟨away, rest, ih.2 ⟨leads, Nat.le_of_succ_le_succ short⟩, rfl⟩

/-- No path is listed twice. -/
theorem nodup_paths (depth u : Nat) : ((b.paths depth u).map (·.1)).Nodup := by
  induction depth generalizing u with
  | zero => exact List.nodup_singleton _
  | succ depth ih =>
    by_cases stops : b.completed u = true ∨ b.total u = 0
    · rw [paths_of_stop stops]
      exact List.nodup_singleton _
    rw [not_or, Bool.not_eq_true] at stops
    rw [paths_succ stops.1 stops.2, List.map_cons, List.map_flatMap, List.nodup_cons,
      List.nodup_flatMap]
    -- a path tells by its first step which link it takes, also where several links lead to one node
    have first {link : (Nat × ℝ) × Nat} {path : List PathStep}
        (member : path ∈ (b.along (b.paths depth) u link).map (·.1)) :
        ∃ rest, path = ⟨u, link.2, link.1.1, link.1.2⟩ :: rest := by
      obtain ⟨⟨path, x⟩, found, rfl⟩ := List.mem_map.1 member
      obtain ⟨-, rest, -, equal⟩ := mem_along.1 found
      exact ⟨rest, equal⟩
    refine ⟨fun member => ?_, fun link _ => ?_, ?_⟩
    · obtain ⟨link, -, isEmpty⟩ := List.mem_flatMap.1 member
      obtain ⟨rest, equal⟩ := first isEmpty
      cases equal
    · unfold along
      split
      · exact List.nodup_nil
      · rw [List.map_map]
        have extended := (ih link.1.1).map (f := (⟨u, link.2, link.1.1, link.1.2⟩ :: ·))
          List.cons_injective
        rwa [List.map_map] at extended
    · have places : ((b.out u).zipIdx.map (·.2)).Nodup := by
        rw [List.zipIdx_map_snd]
        exact List.nodup_range'
      refine (List.pairwise_map.1 places).imp fun other path member member' => ?_
      obtain ⟨rest, rfl⟩ := first member
      obtain ⟨rest', equal⟩ := first member'
      exact other (congrArg PathStep.place (List.cons.inj equal).1)

/-- The links of a node lead back to the start or away from it. -/
theorem back_add_away (u : Nat) :
    b.back u + (((b.out u).filter fun l => decide (l.1 ≠ b.root)).map (·.2)).sum = b.total u :=
  List.sum_map_filter_add_sum_map_filter_not ..

theorem visits_of_stop (stops : depth = 0 ∨ b.completed u = true ∨ b.total u = 0) (given : ℝ) :
    b.visits depth u given = [(u, given)] := by
  have alone : b.paths depth u = [([], u)] := by
    rcases stops with rfl | stops
    · rfl
    · exact paths_of_stop stops depth
  have all : b.kept depth [] u = 1 := by
    refine if_pos ?_
    rcases stops with rfl | completed | weightless
    · exact .inr (.inl rfl)
    · exact .inl completed
    · exact .inr (.inr weightless)
  rw [visits, alone, List.map_singleton, all, product, List.map_nil, List.prod_nil, mul_one, mul_one]

/-- What is given to a node is left there but for the shares of the links that lead away, along which it goes
on. -/
theorem visits_succ (goesOn : b.completed u = false) (weighs : b.total u ≠ 0) (depth : Nat) (given : ℝ) :
    b.visits (depth + 1) u given = (u, given * (b.back u / b.total u)) ::
      (b.out u).flatMap fun l =>
        if l.1 = b.root then [] else b.visits depth l.1 (given * l.2 / b.total u) := by
  have share : b.kept (depth + 1) [] u = b.back u / b.total u := by
    refine if_neg ?_
    rintro (completed | none | weightless)
    · rw [goesOn] at completed
      cases completed
    · cases none
    · exact weighs weightless
  have onward (link : (Nat × ℝ) × Nat) :
      ((b.along (b.paths depth) u link).map fun found =>
        (found.2, given * b.product found.1 * b.kept (depth + 1) found.1 found.2)) =
        if link.1.1 = b.root then [] else b.visits depth link.1.1 (given * link.1.2 / b.total u) := by
    unfold along
    split
    · rfl
    · rw [visits, List.map_map]
      refine List.map_congr_left fun found _ => Prod.ext rfl ?_
      have product : b.product (⟨u, link.2, link.1.1, link.1.2⟩ :: found.1) =
          link.1.2 / b.total u * b.product found.1 := List.prod_cons
      have kept : b.kept (depth + 1) (⟨u, link.2, link.1.1, link.1.2⟩ :: found.1) found.2 =
          b.kept depth found.1 found.2 := by
        simp only [Branching.kept, List.length_cons, Nat.add_right_cancel_iff]
      change given * b.product (_ :: found.1) * b.kept (depth + 1) (_ :: found.1) found.2 = _
      rw [product, kept]
      ring
  have unplaced : (b.out u).zipIdx.map Prod.fst = b.out u := List.zipIdx_map_fst ..
  rw [visits, paths_succ goesOn weighs, List.map_cons, List.map_flatMap, share]
  simp only [onward]
  conv_rhs => rw [← unplaced, List.flatMap_map]
  rw [product, List.map_nil, List.prod_nil, mul_one]

/-- Whatever is given to a node is left somewhere. -/
theorem sum_visits (depth u : Nat) (given : ℝ) :
    ((b.visits depth u given).map (·.2)).sum = given := by
  induction depth generalizing u given with
  | zero => rw [visits_of_stop (.inl rfl), List.map_singleton, List.sum_singleton]
  | succ depth ih =>
    by_cases stops : b.completed u = true ∨ b.total u = 0
    · rw [visits_of_stop (.inr stops), List.map_singleton, List.sum_singleton]
    rw [not_or, Bool.not_eq_true] at stops
    have onward (links : List (Nat × ℝ)) :
        ((links.flatMap fun l => if l.1 = b.root then []
          else b.visits depth l.1 (given * l.2 / b.total u)).map (·.2)).sum =
          given * ((links.filter fun l => decide (l.1 ≠ b.root)).map (·.2)).sum / b.total u := by
      induction links with
      | nil => simp
      | cons l rest others =>
        rw [List.flatMap_cons, List.map_append, List.sum_append, others]
        by_cases isBack : l.1 = b.root
        · rw [if_pos isBack, List.filter_cons_of_neg (by simpa using isBack), List.map_nil, List.sum_nil,
            zero_add]
        · rw [if_neg isBack, ih, List.filter_cons_of_pos (by simpa using isBack), List.map_cons,
            List.sum_cons]
          ring
    rw [visits_succ stops.1 stops.2, List.map_cons, List.sum_cons, onward, mul_div_assoc, ← mul_add,
      ← add_div, back_add_away, div_self stops.2, mul_one]

/-- What is left at a node is the sum over the paths that lead there. -/
theorem exists_sum_paths (depth u x : Nat) (given : ℝ) :
    ∃ paths : Finset (List PathStep), (∀ path, path ∈ paths ↔ b.Leads u path x ∧ path.length ≤ depth) ∧
      (((b.visits depth u given).map fun visit => Finsupp.single visit.1 visit.2).sum) x =
        ∑ path ∈ paths, given * b.product path * b.kept depth path x := by
  classical
  set there := (b.paths depth u).filter fun found => decide (found.2 = x)
  have distinct : (there.map (·.1)).Nodup := (nodup_paths depth u).sublist (List.filter_sublist.map _)
  refine ⟨(there.map (·.1)).toFinset, fun path => ?_, ?_⟩
  · rw [List.mem_toFinset, ← mem_paths, List.mem_map]
    constructor
    · rintro ⟨⟨path, y⟩, member, rfl⟩
      obtain ⟨found, ends⟩ := List.mem_filter.1 member
      rw [decide_eq_true_iff] at ends
      exact ends ▸ found
    · intro member
      exact ⟨(path, x), List.mem_filter.2 ⟨member, decide_eq_true rfl⟩, rfl⟩
  · have amount (found : List (List PathStep × Nat)) :
        ((found.map fun found => Finsupp.single found.2
          (given * b.product found.1 * b.kept depth found.1 found.2)).sum) x =
        (((found.filter fun found => decide (found.2 = x)).map (·.1)).map
          fun path => given * b.product path * b.kept depth path x).sum := by
      induction found with
      | nil => rfl
      | cons found rest ih =>
        rw [List.map_cons, List.sum_cons, Finsupp.add_apply, ih]
        by_cases ends : found.2 = x
        · rw [List.filter_cons_of_pos (by simpa using ends), List.map_cons, List.map_cons, List.sum_cons,
            ends, Finsupp.single_eq_same]
        · rw [List.filter_cons_of_neg (by simpa using ends), Finsupp.single_eq_of_ne (Ne.symm ends), zero_add]
    rw [List.sum_toFinset _ distinct, visits, List.map_map]
    exact amount _

end Branching

/-! ### Walks -/

namespace Walk

open ProofGraph (Unfolded Rooted)

/-- What a depth-first walk sees of a proof graph: what the graph says of its nodes when it is asked. -/
def branching (w : Weighting ℝ) (loops : Bool) (g : ProofGraph) : Branching where
  root := g.startId
  completed := g.isCompleted
  out u := weighed w ((g.links u loops).1.toOption.getD [])

/-- How a walk that asks for links ends: with a result, or with the failure of a graph to give the links of
a node whose proof goes on. -/
inductive Ends (loops : Bool) (g : ProofGraph) {α : Type} (good : α → ProofGraph → Prop) :
    Except Error α × Session ProofGraph → Prop
  | ok {a : α} {s : Session ProofGraph} (unfolded : g.Unfolded loops s.graph) (isGood : good a s.graph) :
      Ends loops g good (.ok a, s)
  | error {e : Error} {s : Session ProofGraph} {g' : ProofGraph} {u : Nat} {r : State}
      (unfolded : g.Unfolded loops g') (known : g'.store.state? u = some r) (goesOn : r.completed = false)
      (refused : g'.expanded u loops = (.error e, s.graph)) : Ends loops g good (.error e, s)

variable {w : Weighting ℝ} {loops : Bool} {g g' : ProofGraph} {α β : Type} {u : Nat}
  {links : List Link}

theorem Ends.bind {x : Walk ProofGraph α} {f : α → Walk ProofGraph β} {s : Session ProofGraph}
    {good : α → ProofGraph → Prop} {good' : β → ProofGraph → Prop} (first : Ends loops s.graph good (x s))
    (next : ∀ a s', s.graph.Unfolded loops s'.graph → good a s'.graph → Ends loops s'.graph good' (f a s')) :
    Ends loops s.graph good' ((x >>= f) s) := by
  rw [bind_apply]
  rcases ran : x s with ⟨e | a, s₁⟩
  · rw [ran] at first
    cases first with
    | error unfolded known goesOn refused => exact .error unfolded known goesOn refused
  · rw [ran] at first
    cases first with
    | ok unfolded isGood =>
      have behind := next a s₁ unfolded isGood
      change Ends loops s.graph good' (f a s₁)
      generalize f a s₁ = result at behind
      cases behind with
      | ok unfolded' isGood' => exact .ok (unfolded.trans unfolded') isGood'
      | error unfolded' known goesOn refused => exact .error (unfolded.trans unfolded') known goesOn refused

theorem Ends.mono {good good' : α → ProofGraph → Prop} {r : Except Error α × Session ProofGraph}
    (ends : Ends loops g good r) (weaker : ∀ a g', g.Unfolded loops g' → good a g' → good' a g') :
    Ends loops g good' r := by
  cases ends with
  | ok unfolded isGood => exact .ok unfolded (weaker _ _ unfolded isGood)
  | error unfolded known goesOn refused => exact .error unfolded known goesOn refused

theorem out_branching (given : g.links u loops = (.ok links, g)) :
    (branching w loops g).out u = weighed w links := by
  change weighed w ((g.links u loops).1.toOption.getD []) = _
  rw [given]
  rfl

/-- The links of a node whose proof goes on are weighed, if the graph gives them. -/
theorem weighLinks_ends {s : Session ProofGraph} {r : State} (known : s.graph.store.state? u = some r)
    (goesOn : r.completed = false) :
    Ends loops s.graph (fun shown g => ∃ links, g.links u loops = (.ok links, g) ∧
      shown = (weighed w links, ((weighed w links).map (·.2)).sum)) (weighLinks w u loops s) := by
  obtain ⟨tally, asks⟩ := weighLinks_apply w u loops s
  rw [asks]
  change Ends loops s.graph _ (((s.graph.expanded u loops).1.map _).map _,
    ⟨(s.graph.expanded u loops).2, tally⟩)
  rcases asked : s.graph.expanded u loops with ⟨e | e, g'⟩
  · exact .error .refl known goesOn asked
  · exact .ok (.single ⟨u, e, asked⟩) ⟨e.links loops, ProofGraph.links_again asked,
      Prod.ext rfl (Scalar.sum_real _)⟩

/-- A graph has all nodes on the paths from a node, and has given the links that the paths take. -/
structure Covers (w : Weighting ℝ) (loops : Bool) (depth u : Nat) (g : ProofGraph) : Prop where
  nodes : ∀ found ∈ (branching w loops g).paths depth u, (g.store.state? found.2).isSome
  given : ∀ found ∈ (branching w loops g).paths depth u, found.1.length < depth →
    g.isCompleted found.2 = false → ∃ links, g.links found.2 loops = (.ok links, g)

/-- The visits of a walk are the ends of the paths from a node, on a graph and on all that it becomes later. -/
def Visits (w : Weighting ℝ) (loops : Bool) (depth u : Nat) (given : ℝ) (visits : List (Nat × ℝ))
    (g : ProofGraph) : Prop :=
  ∀ g', g.Unfolded loops g' →
    Covers w loops depth u g' ∧ visits = (branching w loops g').visits depth u given

theorem total_branching (given : g.links u loops = (.ok links, g)) :
    (branching w loops g).total u = ((weighed w links).map (·.2)).sum := by
  rw [Branching.total, out_branching given]

/-- Where nothing is passed on a walk visits its own node only. -/
theorem visits_of_stop {depth : Nat} {r : State} (rooted : g.Rooted) (known : g.store.state? u = some r)
    (stops : depth = 0 ∨ r.completed = true ∨
      ∃ links, g.links u loops = (.ok links, g) ∧ ((weighed w links).map (·.2)).sum = 0) (given : ℝ) :
    Visits w loops depth u given [(u, given)] g := by
  intro g' unfolded
  have known' := (rooted.unfolded unfolded).2.state u r known
  have completed : (branching w loops g').completed u = r.completed :=
    ProofGraph.isCompleted_of_state known'
  have alone : depth = 0 ∨ (branching w loops g').completed u = true ∨
      (branching w loops g').total u = 0 := by
    rcases stops with rfl | isCompleted | ⟨links, isGiven, weightless⟩
    · exact .inl rfl
    · exact .inr (.inl (completed.trans isCompleted))
    · exact .inr (.inr ((total_branching (ProofGraph.links_of_unfolded isGiven unfolded)).trans weightless))
  have path : (branching w loops g').paths depth u = [([], u)] := by
    rcases alone with rfl | alone
    · rfl
    · exact Branching.paths_of_stop alone depth
  refine ⟨⟨fun found member => ?_, fun found member short goesOn => ?_⟩,
    (Branching.visits_of_stop alone given).symm⟩
  · rw [path, List.mem_singleton] at member
    rw [member, known']
    rfl
  · rw [path, List.mem_singleton] at member
    subst member
    rcases stops with rfl | isCompleted | ⟨links, isGiven, -⟩
    · cases short
    · rw [ProofGraph.isCompleted_of_state known', isCompleted] at goesOn
      cases goesOn
    · exact ⟨links, ProofGraph.links_of_unfolded isGiven unfolded⟩

/-- Where links weigh something the paths go on behind those that lead away from the start. -/
theorem covers_of_links {depth : Nat} {r : State} (known : g.store.state? u = some r)
    (goesOn : r.completed = false) (given : g.links u loops = (.ok links, g))
    (weighs : (branching w loops g).total u ≠ 0)
    (behind : ∀ l ∈ weighed w links, l.1 ≠ g.startId → Covers w loops depth l.1 g) :
    Covers w loops (depth + 1) u g := by
  have open_ : (branching w loops g).completed u = false :=
    (ProofGraph.isCompleted_of_state known).trans goesOn
  -- a path has no links, or goes on behind one of them
  have cases_ (found : List PathStep × Nat) (member : found ∈ (branching w loops g).paths (depth + 1) u) :
      found = ([], u) ∨ ∃ l rest, Covers w loops depth l g ∧
        (rest, found.2) ∈ (branching w loops g).paths depth l ∧ found.1.length = rest.length + 1 := by
    rw [Branching.paths_succ open_ weighs] at member
    rcases List.mem_cons.1 member with isHere | onward
    · exact .inl isHere
    · obtain ⟨⟨l, place⟩, linked, along⟩ := List.mem_flatMap.1 onward
      obtain ⟨away, rest, isBehind, isPath⟩ := Branching.mem_along.1 along
      rw [out_branching given] at linked
      have isLink := List.mem_of_getElem? (List.mem_zipIdx_iff_getElem?.1 linked)
      exact .inr ⟨l.1, rest, behind l isLink away, isBehind, by rw [isPath, List.length_cons]⟩
  constructor
  · intro found member
    rcases cases_ found member with rfl | ⟨l, rest, covers, isBehind, -⟩
    · rw [known]
      rfl
    · exact covers.nodes (rest, found.2) isBehind
  · intro found member short isOpen
    rcases cases_ found member with rfl | ⟨l, rest, covers, isBehind, length⟩
    · exact ⟨links, given⟩
    · have shorter : rest.length + 1 < depth + 1 := length ▸ short
      exact covers.given (rest, found.2) isBehind (Nat.lt_of_succ_lt_succ shorter) isOpen

/-- What is left of what a node has been given, and the visits so far, with one more of its links followed. -/
noncomputable def follow (w : Weighting ℝ) (loops : Bool) (depth root : Nat) (given total : ℝ)
    (sofar : ℝ × List (Nat × ℝ)) (l : Nat × ℝ) : Walk ProofGraph (ℝ × List (Nat × ℝ)) :=
  if l.1 = root then pure sofar
  else do
    let more ← trail w loops depth l.1 (given * l.2 / total)
    pure (sofar.1 - given * l.2 / total, sofar.2 ++ more)

/-- The links of a node have been followed in turn: what is left of what it has been given, and the visits. -/
def Followed (w : Weighting ℝ) (loops : Bool) (depth root : Nat) (given total : ℝ) (ws : List (Nat × ℝ))
    (before after : ℝ × List (Nat × ℝ)) (g : ProofGraph) : Prop :=
  ∀ g', g.Unfolded loops g' →
    (∀ l ∈ ws, l.1 ≠ root → Covers w loops depth l.1 g') ∧
    after.1 = before.1 - given * ((ws.filter fun l => decide (l.1 ≠ root)).map (·.2)).sum / total ∧
    after.2 = before.2 ++ ws.flatMap fun l => if l.1 = root then []
      else (branching w loops g').visits depth l.1 (given * l.2 / total)

variable {depth root : Nat} {given total : ℝ}

theorem Followed.cons {l : Nat × ℝ} {rest : List (Nat × ℝ)} {before between after : ℝ × List (Nat × ℝ)}
    (first : Followed w loops depth root given total [l] before between g) (unfolded : g.Unfolded loops g')
    (others : Followed w loops depth root given total rest between after g') :
    Followed w loops depth root given total (l :: rest) before after g' := by
  intro g'' later
  obtain ⟨covers, left, visits⟩ := first g'' (unfolded.trans later)
  obtain ⟨covers', left', visits'⟩ := others g'' later
  refine ⟨fun l' member => ?_, ?_, ?_⟩
  · rcases List.mem_cons.1 member with rfl | member
    · exact covers l' (List.mem_cons_self ..)
    · exact covers' l' member
  · have parts : l :: rest = [l] ++ rest := rfl
    rw [left', left, parts, List.filter_append, List.map_append, List.sum_append]
    ring
  · rw [visits', visits, List.append_assoc, List.flatMap_cons, List.flatMap_cons, List.flatMap_nil,
      List.append_nil]

/-- When all links of a node have been followed its visit comes first, with what is left. -/
theorem Followed.visits {r : State} {left : ℝ} {visits : List (Nat × ℝ)} (rooted : g.Rooted)
    (known : g.store.state? u = some r) (goesOn : r.completed = false)
    (isGiven : g.links u loops = (.ok links, g)) (weighs : ((weighed w links).map (·.2)).sum ≠ 0)
    (unfolded : g.Unfolded loops g')
    (followed : Followed w loops depth g.startId given ((weighed w links).map (·.2)).sum (weighed w links)
      (given, []) (left, visits) g') :
    Visits w loops (depth + 1) u given ((u, left) :: visits) g' := by
  intro g'' later
  obtain ⟨covers, isLeft, isVisits⟩ := followed g'' later
  have beyond := unfolded.trans later
  obtain ⟨-, keeps⟩ := rooted.unfolded beyond
  have known' := keeps.state u r known
  have isGiven' := ProofGraph.links_of_unfolded isGiven beyond
  have total := total_branching (w := w) isGiven'
  have root : (branching w loops g'').root = g.startId := keeps.startId
  have weighs' : (branching w loops g'').total u ≠ 0 := by rwa [total]
  have open_ : (branching w loops g'').completed u = false :=
    (ProofGraph.isCompleted_of_state known').trans goesOn
  refine ⟨covers_of_links known' goesOn isGiven' weighs' (keeps.startId ▸ covers), ?_⟩
  -- what has not gone along links that lead away would have gone back to the start
  have parts := Branching.back_add_away (b := branching w loops g'') u
  rw [total, root, out_branching isGiven'] at parts
  have share : given - given * (((weighed w links).filter fun l =>
      decide (l.1 ≠ g.startId)).map (·.2)).sum / ((weighed w links).map (·.2)).sum =
      given * ((branching w loops g'').back u / ((weighed w links).map (·.2)).sum) := by
    field_simp
    linear_combination -given * parts
  simp only [List.nil_append] at isLeft isVisits
  rw [Branching.visits_succ open_ weighs', isVisits, isLeft, total, root, out_branching isGiven', share]

section

variable (behind : ∀ (u : Nat) (given : ℝ) (s : Session ProofGraph), s.graph.Rooted →
  (s.graph.store.state? u).isSome →
  Ends loops s.graph (Visits w loops depth u given) (trail w loops depth u given s))

include behind

/-- A link that leads back to the start is not followed, and another one takes its share. -/
theorem follow_ends {s : Session ProofGraph} (rooted : s.graph.Rooted) {l : Nat × ℝ}
    (node : (s.graph.store.state? l.1).isSome) (sofar : ℝ × List (Nat × ℝ)) :
    Ends loops s.graph (Followed w loops depth root given total [l] sofar)
      (follow w loops depth root given total sofar l s) := by
  unfold follow
  split
  · rename_i isBack
    refine .ok .refl fun g' _ => ⟨fun l' member away => ?_, ?_, ?_⟩
    · rw [List.mem_singleton.1 member] at away
      exact absurd isBack away
    · simp [isBack]
    · simp [isBack]
  · rename_i away
    refine Ends.bind (behind l.1 _ s rooted node) fun more s₁ _ visits => .ok .refl fun g' later => ?_
    obtain ⟨covers, isMore⟩ := visits g' later
    refine ⟨fun l' member _ => ?_, ?_, ?_⟩
    · rw [List.mem_singleton.1 member]
      exact covers
    · simp [away]
    · simp [away, isMore]

/-- All links of a node in turn. -/
theorem foldlM_follow (ws : List (Nat × ℝ)) {s : Session ProofGraph} (rooted : s.graph.Rooted)
    (nodes : ∀ l ∈ ws, (s.graph.store.state? l.1).isSome) (sofar : ℝ × List (Nat × ℝ)) :
    Ends loops s.graph (Followed w loops depth root given total ws sofar)
      (ws.foldlM (follow w loops depth root given total) sofar s) := by
  induction ws generalizing sofar s with
  | nil =>
    refine .ok .refl fun g' _ => ⟨fun l member => (by cases member), ?_, ?_⟩
    · simp
    · simp
  | cons l rest ih =>
    rw [List.foldlM_cons]
    refine (follow_ends behind rooted (nodes l (List.mem_cons_self ..)) sofar).bind
      fun between s₁ unfolded first => ?_
    obtain ⟨rooted₁, keeps⟩ := rooted.unfolded unfolded
    exact (ih rooted₁ (fun l' member => keeps.isSome (nodes l' (List.mem_cons_of_mem _ member))) between).mono
      fun after g' later others => first.cons later others

end

/-- A walk visits the ends of the paths from its node, on every graph that its own becomes later. -/
theorem trail_ends (w : Weighting ℝ) (loops : Bool) (depth u : Nat) (given : ℝ)
    (s : Session ProofGraph) (rooted : s.graph.Rooted) (node : (s.graph.store.state? u).isSome) :
    Ends loops s.graph (Visits w loops depth u given) (trail w loops depth u given s) := by
  -- on the depth: node, amount and graph are different ones behind each link
  induction depth generalizing u given s with
  | zero =>
    obtain ⟨r, known⟩ := Option.isSome_iff_exists.1 node
    exact .ok .refl (visits_of_stop rooted known (.inl (Eq.refl 0)) given)
  | succ depth ih =>
    obtain ⟨r, known⟩ := Option.isSome_iff_exists.1 node
    have asked : (isCompleted u : Walk ProofGraph Bool) s = (.ok r.completed, s) :=
      congrArg (fun completed => (Except.ok completed, s)) (ProofGraph.isCompleted_of_state known)
    rw [trail, bind_of_ok asked]
    cases completed : r.completed with
    | true => exact .ok .refl (visits_of_stop rooted known (.inr (.inl completed)) given)
    | false =>
      refine Ends.bind (weighLinks_ends known completed) fun shown s₁ unfolded isShown => ?_
      obtain ⟨links, isGiven, rfl⟩ := isShown
      obtain ⟨rooted₁, keeps⟩ := rooted.unfolded unfolded
      have known₁ := keeps.state u r known
      simp only
      split
      · rename_i weightless
        exact .ok .refl
          (visits_of_stop rooted₁ known₁ (.inr (.inr ⟨links, isGiven, eq_of_beq weightless⟩)) given)
      · rename_i weight
        have weighs : ((weighed w links).map (·.2)).sum ≠ 0 := fun zero => weight (beq_iff_eq.2 zero)
        have started : (start : Walk ProofGraph Nat) s₁ = (.ok s₁.graph.startId, s₁) := rfl
        rw [bind_of_ok started]
        have nodes : ∀ l ∈ weighed w links, (s₁.graph.store.state? l.1).isSome := by
          intro l member
          obtain ⟨link, isLink, rfl⟩ := List.mem_map.1 member
          exact rooted₁.isSome_child isGiven isLink
        exact Ends.bind (foldlM_follow ih (weighed w links) rooted₁ nodes (given, []))
          fun r s₂ unfolded₂ followed =>
            .ok .refl (followed.visits rooted₁ known₁ completed isGiven weighs unfolded₂)

end Walk

/-! ### Scores -/

namespace Scores

/-- What has been added up is scored, and nothing else. -/
theorem mem_foldl_add (visits : List (Nat × ℝ)) (scores : Scores ℝ) (x : Nat) :
    x ∈ visits.foldl (fun scores visit => scores.add visit.1 visit.2) scores ↔
      x ∈ scores ∨ ∃ visit ∈ visits, visit.1 = x := by
  induction visits generalizing scores with
  | nil => simp
  | cons visit rest ih =>
    have added : x ∈ scores.add visit.1 visit.2 ↔ visit.1 = x ∨ x ∈ scores := by
      rw [Scores.add, Std.TreeMap.mem_insert, Nat.compare_eq_eq]
    simp only [List.foldl_cons, ih, added, List.mem_cons, exists_eq_or_imp]
    rw [or_comm (a := visit.1 = x), or_assoc]

end Scores

open Walk (branching) in
/-- Scores that a depth-first walk has come to, on the graph that it leaves behind. All paths lead to nodes
of the graph, which has given the links that they take. The score of a node is the sum over the paths to
it of what each keeps there, nodes without a path have none, and all scores together are one. -/
structure SumsPaths (w : Weighting ℝ) (loops : Bool) (depth : Nat) (g : ProofGraph) (scores : Scores ℝ) :
    Prop where
  nodes : ∀ path x, (branching w loops g).Leads g.startId path x → path.length ≤ depth →
    (g.store.state? x).isSome
  given : ∀ path x, (branching w loops g).Leads g.startId path x → path.length < depth →
    g.isCompleted x = false → ∃ links, g.links x loops = (.ok links, g)
  score : ∀ x, ∃ paths : Finset (List PathStep),
    (∀ path, path ∈ paths ↔ (branching w loops g).Leads g.startId path x ∧ path.length ≤ depth) ∧
      scores.at x =
        ∑ path ∈ paths, (branching w loops g).product path * (branching w loops g).kept depth path x
  scored : ∀ x, x ∈ scores ↔
    ∃ path, (branching w loops g).Leads g.startId path x ∧ path.length ≤ depth
  all : Scalar.sum scores.values = 1

/-- Visits of all paths from the start add up to sums over paths. -/
theorem Walk.Visits.sumsPaths {w : Weighting ℝ} {loops : Bool} {depth : Nat} {g : ProofGraph}
    {visits : List (Nat × ℝ)} (isVisits : Walk.Visits w loops depth g.startId 1 visits g) :
    SumsPaths w loops depth g (visits.foldl (fun scores visit => scores.add visit.1 visit.2) ∅) := by
  obtain ⟨covers, equal⟩ := isVisits g .refl
  have amounts := Scores.toFinsupp_foldl_add (·.2) visits ∅
  rw [Scores.toFinsupp_empty, zero_add] at amounts
  refine ⟨fun path x leads short => covers.nodes (path, x) (Branching.mem_paths.2 ⟨leads, short⟩),
    fun path x leads short => covers.given (path, x) (Branching.mem_paths.2 ⟨leads, short.le⟩) short,
    fun x => ?_, fun x => ?_, ?_⟩
  · obtain ⟨paths, isPaths, sum⟩ := (branching w loops g).exists_sum_paths depth g.startId x 1
    refine ⟨paths, isPaths, ?_⟩
    rw [← Scores.toFinsupp_apply, amounts, equal, sum]
    simp only [one_mul]
  · rw [Scores.mem_foldl_add, equal, Branching.visits]
    constructor
    · rintro (absent | ⟨visit, member, rfl⟩)
      · exact absurd absent Std.TreeMap.not_mem_emptyc
      · obtain ⟨⟨path, x⟩, found, rfl⟩ := List.mem_map.1 member
        exact ⟨path, Branching.mem_paths.1 found⟩
    · rintro ⟨path, leads, short⟩
      exact .inr ⟨_, List.mem_map.2 ⟨(path, x), Branching.mem_paths.2 ⟨leads, short⟩, rfl⟩, rfl⟩
  · have added (visits : List (Nat × ℝ)) :
        dot (visits.map fun visit => Finsupp.single visit.1 visit.2).sum (fun _ => 1) =
          (visits.map (·.2)).sum := by
      induction visits with
      | nil => rfl
      | cons visit rest ih =>
        rw [List.map_cons, List.sum_cons, dot_add, dot_single, mul_one, ih, List.map_cons, List.sum_cons]
    rw [← dot_toFinsupp_one, amounts, added, equal, Branching.sum_visits]

/-- The depth-first walk ends with sums over paths. -/
theorem Walk.pathSums_ends (w : Weighting ℝ) (o : WalkOptions ℝ) (loops : Bool) (s : Session ProofGraph)
    (rooted : s.graph.Rooted) :
    Ends loops s.graph (fun scores g => SumsPaths w loops o.maxDepth g scores) (pathSums w o loops s) := by
  have started : (start : Walk ProofGraph Nat) s = (.ok s.graph.startId, s) := rfl
  rw [pathSums, bind_of_ok started]
  refine (trail_ends w loops o.maxDepth s.graph.startId 1 s rooted rooted.start).bind
    fun visits s₁ unfolded isVisits => .ok .refl ?_
  rw [← (rooted.unfolded unfolded).2.startId] at isVisits
  exact isVisits.sumsPaths

/-- The score that the depth-first prover gives a node is the sum over all paths to it from the start, on every
proof graph that has been asked for anything before. It gives scores unless the graph fails to give the
links of a node whose proof goes on. -/
theorem Prover.dfs_sums_paths {kind : GraphKind} {labelled : LabelledExample} {program : Program}
    {relations : List Relation} {features : FeatureTable} {g₀ : ProofGraph}
    (made : ProofGraph.new kind labelled program relations features = .ok g₀) (calls : List Call)
    (weighter : Weighter ℝ) (o : WalkOptions ℝ) (loops : Bool) :
    let g := (answers ProofGraph.call g₀ calls).2
    let proved := (new (.dfs loops) o weighter).proveOn g
    (∃ scores g', proved = (.ok scores, g') ∧ g.Unfolded loops g' ∧
      SumsPaths weighter.weighting loops o.maxDepth g' scores) ∨
    ∃ e g₁ g' u r, proved = (.error e, g') ∧ g.Unfolded loops g₁ ∧ g₁.store.state? u = some r ∧
      r.completed = false ∧ g₁.expanded u loops = (.error e, g') := by
  intro g proved
  have rooted : g.Rooted := (ProofGraph.rooted_new made).answers calls
  have walks : proved = ((Walk.pathSums weighter.weighting o loops (session g)).1,
      (Walk.pathSums weighter.weighting o loops (session g)).2.graph) := by
    change (((new (.dfs loops) o weighter).prove (session g)).1,
      ((new (.dfs loops) o weighter).prove (session g)).2.graph) = _
    rw [prove, bind_apply]
    rfl
  have ends := Walk.pathSums_ends weighter.weighting o loops (session g) rooted
  rcases ran : Walk.pathSums weighter.weighting o loops (session g) with ⟨r, s⟩
  rw [ran] at ends walks
  cases ends with
  | ok unfolded sums => exact .inl ⟨_, _, walks, unfolded, sums⟩
  | error unfolded known goesOn refused => exact .inr ⟨_, _, _, _, _, walks, unfolded, known, goesOn, refused⟩

open ProofGraph in
/-- The scores of the question whether a fact holds, after the question and its answer have been asked for
their degrees. -/
theorem Prover.dfs_sums_paths_fact : ∃ g scores g',
    ProofGraph.new .state askFact factProgram [] .empty = .ok g ∧
    (new (.dfs true) tenths plainWeights).proveOn
      (answers ProofGraph.call g [.idDegree 1 true, .idDegree 2 true]).2 = (.ok scores, g') ∧
    SumsPaths plainWeights.weighting true 20 g' scores := by
  obtain ⟨g, made, isCode, isStart⟩ := exists_factGraph .state .empty
  obtain ⟨g₁, g₂, e₁, e₂, graphs⟩ :=
    exists_factGraphs FeatureTable.lawful_empty ⟨by decide, by decide⟩ made isCode isStart
  have asked : (answers ProofGraph.call g [.idDegree 1 true, .idDegree 2 true]).2 = g₂ := by
    have first : (g.call (.idDegree 1 true)).2 = g₁ := congrArg Prod.snd graphs.first
    have second : (g₁.call (.idDegree 2 true)).2 = g₂ := congrArg Prod.snd graphs.second
    change ((g.call (.idDegree 1 true)).2.call (.idDegree 2 true)).2 = g₂
    rw [first, second]
  -- both nodes have been expanded, so that nothing changes any more
  have known (v : Nat) (r : State) (isState : g₂.store.state? v = some r) :
      ∃ e, g₂.expanded v true = (.ok e, g₂) := by
    have inside := graphs.coherent.bounds isState
    rw [graphs.count₂] at inside
    obtain rfl | rfl : v = 1 ∨ v = 2 := by omega
    · exact ⟨e₁, graphs.again₂⟩
    · exact ⟨e₂, graphs.againEnd⟩
  have stays (h : ProofGraph) (unfolded : g₂.Unfolded true h) : h = g₂ := by
    induction unfolded with
    | refl => rfl
    | tail _ step ih =>
      obtain ⟨v, e, done⟩ := step
      rw [ih] at done
      obtain ⟨r, isState⟩ := graphs.coherent.exists_state_of_expanded done
      obtain ⟨e', again⟩ := known v r isState
      rw [again] at done
      exact (Prod.mk.inj done).2.symm
  have proved := dfs_sums_paths made [.idDegree 1 true, .idDegree 2 true] plainWeights tenths true
  obtain ⟨scores, g', proved, -, sums⟩ | ⟨e, h, g', u, r, -, unfolded, isState, -, refused⟩ := proved
  · exact ⟨g, scores, g', made, proved, sums⟩
  · rw [asked] at unfolded
    rw [stays h unfolded] at isState refused
    obtain ⟨e', again⟩ := known u r isState
    rw [again] at refused
    cases refused

end ProofWalk
