import Mathlib.Data.Finsupp.Weight
import Mathlib.Order.Compare
import ProofWalk.Proofs.Prover.Passes

/-!
# Serving a queue

The walk by priority takes entries off a queue in turn. What it does with a node is what a pass does,
so serving the queue with a record gives a record of pushes as well. Every node that waits has been
shown by the graph, and every entry that is taken leaves less to wait for.

## Main definitions

* `Stand`, `Stand.turn` — what the walk has at the head of its loop, and one turn of the loop
* `Stand.Turns` — what a turn can do
* `Recording.serve` — serving a queue with a record
* `PushQueue.waiting` — how often each entry waits

## Main results

* `Walk.serve_of_entry` — serving a queue takes turns
* `Recording.erases_serve` — the recorded service is the service with a record
* `Recording.serve_reaches` — each mass of its record comes from the one before by a push
* `PushQueue.waiting_lt_of_pop?` — an entry taken off a queue leaves less to wait for
* `PushQueue.score_le_of_pop?` — and no other has a larger score
-/

namespace ProofWalk

open Std

/-! ### The order of entries -/

instance : TransCmp (QueueEntry.compare (K := ℝ)) := by
  have scores : TransCmp fun a b : QueueEntry ℝ => compare b.score a.score :=
    @TransCmp.opposite _ (compareOn QueueEntry.score) _
  exact inferInstanceAs (TransCmp (compareLex _ (compareOn QueueEntry.node)))

instance : LawfulEqCmp (QueueEntry.compare (K := ℝ)) where
  compare_self := by
    exact @ReflCmp.compare_self _ (QueueEntry.compare (K := ℝ)) _
  eq_of_compare {a b} same := by
    obtain ⟨scores, nodes⟩ := Ordering.then_eq_eq.1 same
    obtain ⟨score, node⟩ := a
    obtain ⟨score', node'⟩ := b
    obtain rfl : score' = score := Std.compare_eq_iff_eq.1 scores
    obtain rfl : node = node' := Std.compare_eq_iff_eq.1 nodes
    rfl

namespace PushQueue

variable {q q' : PushQueue ℝ} {e e' : QueueEntry ℝ}

theorem mem_push (member : e' ∈ q.push e) : e' = e ∨ e' ∈ q := by
  rw [PushQueue.push, TreeMap.mem_alter] at member
  split at member
  · rename_i same
    exact .inl (LawfulEqCmp.eq_of_compare same).symm
  · exact .inr member

theorem mem_push_iff : e' ∈ q.push e ↔ e' = e ∨ e' ∈ q := by
  refine ⟨mem_push, ?_⟩
  rw [PushQueue.push, TreeMap.mem_alter]
  split
  · exact fun _ => rfl
  · rename_i differs
    rintro (rfl | member)
    · exact absurd ReflCmp.compare_self differs
    · exact member

theorem pop?_eq_some (popped : q.pop? = some (e, q')) :
    e ∈ q ∧ q' = if (q[e]?).getD 0 ≤ 1 then q.erase e else q.insert e ((q[e]?).getD 0 - 1) := by
  unfold PushQueue.pop? at popped
  split at popped
  · cases popped
  · rename_i first isFirst
    cases popped
    exact ⟨(TreeMap.minKey?_eq_some_iff_mem_and_forall.1 isFirst).1, rfl⟩

theorem mem_of_pop? (popped : q.pop? = some (e, q')) (member : e' ∈ q') : e' ∈ q := by
  obtain ⟨inside, rfl⟩ := pop?_eq_some popped
  split at member
  · exact (TreeMap.mem_erase.1 member).2
  · obtain same | member := TreeMap.mem_insert.1 member
    · rwa [← LawfulEqCmp.eq_of_compare same]
    · exact member

/-- Taking an entry off leaves all the others. -/
theorem mem_of_pop?_of_ne (popped : q.pop? = some (e, q')) (member : e' ∈ q) (other : e' ≠ e) :
    e' ∈ q' := by
  obtain ⟨-, rfl⟩ := pop?_eq_some popped
  split
  · exact TreeMap.mem_erase.2 ⟨fun same => other (LawfulEqCmp.eq_of_compare same).symm, member⟩
  · exact TreeMap.mem_insert.2 (.inr member)

/-- The entry that is taken off has the largest score. -/
theorem score_le_of_pop? (popped : q.pop? = some (e, q')) (member : e' ∈ q) : e'.score ≤ e.score := by
  unfold PushQueue.pop? at popped
  split at popped
  · cases popped
  · rename_i first isFirst
    cases popped
    have before : (QueueEntry.compare e e').isLE :=
      (TreeMap.minKey?_eq_some_iff_mem_and_forall.1 isFirst).2 e' member
    rw [QueueEntry.compare, Ordering.isLE_then_iff_or] at before
    obtain larger | ⟨same, -⟩ := before
    · exact (compare_lt_iff_lt.1 larger).le
    · exact (Std.compare_eq_iff_eq.1 same).le

theorem not_mem_of_pop?_eq_none (empty : q.pop? = none) : e ∉ q := by
  unfold PushQueue.pop? at empty
  split at empty
  · rename_i none
    exact TreeMap.not_mem_of_isEmpty (TreeMap.minKey?_eq_none_iff.1 none)
  · cases empty

/-- How often each entry waits, and one more for those that wait at all. -/
noncomputable def waiting (q : PushQueue ℝ) : QueueEntry ℝ →₀ ℕ := by
  classical
  exact Finsupp.onFinset q.keys.toFinset (fun e => ((q[e]?).map (· + 1)).getD 0) fun e waits => by
    rw [List.mem_toFinset, TreeMap.mem_keys, TreeMap.mem_iff_isSome_getElem?]
    cases found : q[e]? with
    | none => exact absurd (by rw [found]; rfl) waits
    | some n => rfl

theorem waiting_apply (q : PushQueue ℝ) (e : QueueEntry ℝ) :
    q.waiting e = ((q[e]?).map (· + 1)).getD 0 := rfl

/-- An entry taken off a queue leaves less to wait for. -/
theorem waiting_lt_of_pop? (popped : q.pop? = some (e, q')) :
    q'.waiting.degree < q.waiting.degree := by
  classical
  obtain ⟨inside, rfl⟩ := pop?_eq_some popped
  obtain ⟨n, found⟩ := Option.isSome_iff_exists.1 (TreeMap.mem_iff_isSome_getElem?.1 inside)
  set rest : PushQueue ℝ :=
    if (q[e]?).getD 0 ≤ 1 then q.erase e else q.insert e ((q[e]?).getD 0 - 1) with isRest
  have others : rest.waiting.erase e = q.waiting.erase e := by
    ext other
    by_cases same : other = e
    · rw [same, Finsupp.erase_same, Finsupp.erase_same]
    · rw [Finsupp.erase_ne same, Finsupp.erase_ne same, waiting_apply, waiting_apply, isRest]
      have differs : QueueEntry.compare e other ≠ .eq := fun equal =>
        same (LawfulEqCmp.eq_of_compare equal).symm
      split
      · rw [TreeMap.getElem?_erase, if_neg differs]
      · rw [TreeMap.getElem?_insert, if_neg differs]
  have fewer : rest.waiting e < q.waiting e := by
    have self : QueueEntry.compare e e = .eq := ReflCmp.compare_self
    rw [waiting_apply, waiting_apply, isRest, found]
    split
    · rw [TreeMap.getElem?_erase, if_pos self]
      exact Nat.succ_pos n
    · rename_i many
      rw [TreeMap.getElem?_insert, if_pos self]
      simp only [Option.getD_some, Option.map_some, Nat.not_le] at many ⊢
      omega
  have split (f : QueueEntry ℝ →₀ ℕ) : f.degree = (f.erase e).degree + f e := by
    conv_lhs => rw [← Finsupp.erase_add_single e f]
    rw [map_add, Finsupp.degree_single]
  rw [split rest.waiting, split q.waiting, others]
  omega

end PushQueue

theorem mem_distinctSorted {xs : List Nat} {x : Nat} (member : x ∈ distinctSorted xs) : x ∈ xs := by
  rw [distinctSorted] at member
  rw [← (xs.mergeSort_perm fun a b => a ≤ b).mem_iff]
  generalize xs.mergeSort = sorted at member ⊢
  induction sorted with
  | nil => exact member
  | cons y rest ih =>
    rw [List.foldr_cons] at member
    split at member
    · exact List.mem_cons_of_mem _ (ih member)
    · obtain rfl | member := List.mem_cons.1 member
      · exact List.mem_cons_self
      · exact List.mem_cons_of_mem _ (ih member)

theorem mem_distinctSorted_of_mem {xs : List Nat} {x : Nat} (member : x ∈ xs) :
    x ∈ distinctSorted xs := by
  rw [distinctSorted]
  rw [← (xs.mergeSort_perm fun a b => a ≤ b).mem_iff] at member
  generalize xs.mergeSort = sorted at member ⊢
  induction sorted with
  | nil => exact member
  | cons y rest ih =>
    rw [List.foldr_cons]
    obtain rfl | member := List.mem_cons.1 member
    · split
      · rename_i again
        exact List.mem_of_mem_head? again
      · exact List.mem_cons_self
    · split
      · exact ih member
      · exact List.mem_cons_of_mem _ (ih member)

/-! ### Turns of the loop -/

/-- What the walk has at the head of its loop: the mass, the queue, and how many current entries it has
accepted. -/
structure Stand (K : Type) [Scalar K] where
  mass : DenseMass K
  queue : PushQueue K
  accepted : Nat

section

variable {Γ K : Type} [Walkable Γ] [Scalar K]

/-- One turn of the loop, for an entry that is taken off the queue and the queue without it. -/
def Stand.turn (w : Weighting K) (o : WalkOptions K) (bound : Nat) (p : Stand K) (head : QueueEntry K)
    (q : PushQueue K) : Walk Γ (Stand K) := do
  let u := head.node
  let degree ← Walk.degree u
  if !(entryAt p.mass.residual u / degree == head.score) then pure { p with queue := q }
  else if head.score ≤ o.epsilon then pure { p with queue := q, accepted := p.accepted + 1 }
  else
    let (links, total) ← Walk.weighLinks w u true
    if total == 0 then pure { mass := p.mass.absorb u, queue := q, accepted := p.accepted + 1 }
    else match p.mass.drainAll o degree u links total bound with
      | none => throw .walkUnfinished
      | some mass =>
        let queue ← Walk.enqueue mass q (distinctSorted (u :: links.map (·.1)))
        pure { mass, queue, accepted := p.accepted + 1 }

namespace Walk

/-- Serving ends where no entry waits. -/
theorem serve_of_empty (w : Weighting K) (o : WalkOptions K) (bound limit : Nat) {p : Stand K} {most : Nat}
    (more : p.accepted < most) (empty : p.queue.pop? = none) :
    (serve w o bound (limit + 1) (most - p.accepted) p.mass p.queue : Walk Γ _) = pure p.mass := by
  obtain ⟨taken, left⟩ : ∃ taken, most - p.accepted = taken + 1 := ⟨most - p.accepted - 1, by omega⟩
  rw [left, serve, empty]

/-- Serving a queue takes a turn and goes on. -/
theorem serve_of_entry (w : Weighting K) (o : WalkOptions K) (bound limit : Nat) {p : Stand K} {most : Nat}
    (more : p.accepted < most) {head : QueueEntry K} {q : PushQueue K}
    (popped : p.queue.pop? = some (head, q)) :
    (serve w o bound (limit + 1) (most - p.accepted) p.mass p.queue : Walk Γ _) =
      p.turn w o bound head q >>= fun p' => serve w o bound limit (most - p'.accepted) p'.mass p'.queue := by
  obtain ⟨taken, left⟩ : ∃ taken, most - p.accepted = taken + 1 := ⟨most - p.accepted - 1, by omega⟩
  have less : most - (p.accepted + 1) = taken := by omega
  rw [left, serve, popped]
  simp only [Stand.turn, bind_assoc]
  refine bind_congr fun degree => ?_
  split
  · rw [pure_bind, left]
  split
  · rw [pure_bind, less]
  rw [bind_assoc]
  refine bind_congr fun weighed => ?_
  split
  · rw [pure_bind, less]
  cases p.mass.drainAll o degree head.node weighed.1 weighed.2 bound with
  | none => rfl
  | some m => simp only [bind_assoc, pure_bind, less]

end Walk

/-- What a turn can do: the entry is out of date, or it is below the threshold, or its node settles all it
has, or its node is pushed and makes entries. -/
inductive Stand.Turns (w : Weighting K) (o : WalkOptions K) (bound : Nat) (p : Stand K)
    (head : QueueEntry K) (q : PushQueue K) (s : Session Γ) : Stand K → Session Γ → Prop
  | stale {degree : K} {s₁ : Session Γ} (counts : Walk.degree head.node s = (.ok degree, s₁))
      (stale : ¬ (entryAt p.mass.residual head.node / degree == head.score)) :
      Turns w o bound p head q s { p with queue := q } s₁
  | low {degree : K} {s₁ : Session Γ} (counts : Walk.degree head.node s = (.ok degree, s₁))
      (current : entryAt p.mass.residual head.node / degree == head.score)
      (low : head.score ≤ o.epsilon) :
      Turns w o bound p head q s { p with queue := q, accepted := p.accepted + 1 } s₁
  | absorb {degree : K} {s₁ s₂ : Session Γ} {links : List (Nat × K)} {total : K}
      (counts : Walk.degree head.node s = (.ok degree, s₁))
      (current : entryAt p.mass.residual head.node / degree == head.score)
      (above : ¬ head.score ≤ o.epsilon)
      (weighs : Walk.weighLinks w head.node true s₁ = (.ok (links, total), s₂)) (weightless : total == 0) :
      Turns w o bound p head q s
        { mass := p.mass.absorb head.node, queue := q, accepted := p.accepted + 1 } s₂
  | push {degree : K} {s₁ s₂ s₃ : Session Γ} {links : List (Nat × K)} {total : K} {m : DenseMass K}
      {q' : PushQueue K} (counts : Walk.degree head.node s = (.ok degree, s₁))
      (current : entryAt p.mass.residual head.node / degree == head.score)
      (above : ¬ head.score ≤ o.epsilon)
      (weighs : Walk.weighLinks w head.node true s₁ = (.ok (links, total), s₂))
      (weighty : ¬ (total == 0))
      (drains : p.mass.drainAll o degree head.node links total bound = some m)
      (enters : Walk.enqueue m q (distinctSorted (head.node :: links.map (·.1))) s₂ = (.ok q', s₃)) :
      Turns w o bound p head q s { mass := m, queue := q', accepted := p.accepted + 1 } s₃

theorem Stand.turns_of_turn {w : Weighting K} {o : WalkOptions K} {bound : Nat} {p p' : Stand K}
    {head : QueueEntry K} {q : PushQueue K} {s s' : Session Γ}
    (turns : p.turn w o bound head q s = (.ok p', s')) : p.Turns w o bound head q s p' s' := by
  obtain ⟨degree, s₁, counts, judged⟩ := bind_eq_ok turns
  by_cases current : entryAt p.mass.residual head.node / degree == head.score
  case neg =>
    rw [if_pos (by simpa using current)] at judged
    obtain ⟨rfl, rfl⟩ := pure_eq_ok judged
    exact .stale counts current
  rw [if_neg (by simpa using current)] at judged
  by_cases low : head.score ≤ o.epsilon
  case pos =>
    rw [if_pos low] at judged
    obtain ⟨rfl, rfl⟩ := pure_eq_ok judged
    exact .low counts current low
  rw [if_neg low] at judged
  obtain ⟨⟨links, total⟩, s₂, weighs, settled⟩ := bind_eq_ok judged
  simp only at settled
  by_cases weightless : total == 0
  case pos =>
    rw [if_pos weightless] at settled
    obtain ⟨rfl, rfl⟩ := pure_eq_ok settled
    exact .absorb counts current low weighs weightless
  rw [if_neg weightless] at settled
  cases drains : p.mass.drainAll o degree head.node links total bound with
  | none =>
    rw [drains] at settled
    cases settled
  | some m =>
    rw [drains] at settled
    obtain ⟨q', s₃, enters, done⟩ := bind_eq_ok settled
    obtain ⟨rfl, rfl⟩ := pure_eq_ok done
    exact .push counts current low weighs weightless drains enters

theorem Stand.Turns.turn {w : Weighting K} {o : WalkOptions K} {bound : Nat} {p p' : Stand K}
    {head : QueueEntry K} {q : PushQueue K} {s s' : Session Γ} (turns : p.Turns w o bound head q s p' s') :
    p.turn w o bound head q s = (.ok p', s') := by
  cases turns with
  | stale counts stale =>
    rw [Stand.turn, bind_of_ok counts, if_pos (by simpa using stale)]
    rfl
  | low counts current low =>
    rw [Stand.turn, bind_of_ok counts, if_neg (by simpa using current), if_pos low]
    rfl
  | absorb counts current above weighs weightless =>
    rw [Stand.turn, bind_of_ok counts, if_neg (by simpa using current), if_neg above, bind_of_ok weighs]
    simp only [if_pos weightless]
    rfl
  | push counts current above weighs weighty drains enters =>
    rw [Stand.turn, bind_of_ok counts, if_neg (by simpa using current), if_neg above, bind_of_ok weighs]
    simp only [if_neg weighty, drains]
    rw [bind_of_ok enters]
    rfl

/-- A turn accepts at most one entry. -/
theorem Stand.accepted_turn_le {w : Weighting K} {o : WalkOptions K} {bound : Nat} {p p' : Stand K}
    {head : QueueEntry K} {q : PushQueue K} {s s' : Session Γ}
    (turns : p.turn w o bound head q s = (.ok p', s')) : p'.accepted ≤ p.accepted + 1 := by
  cases Stand.turns_of_turn turns with
  | stale => exact Nat.le_succ _
  | low => exact le_rfl
  | absorb => exact le_rfl
  | push => exact le_rfl

end

/-! ### With a record -/

namespace Recording

section

variable {Γ K : Type} [Walkable Γ] [Scalar K] (w : Weighting K) (o : WalkOptions K) (bound : Nat)

/-- Serves a queue, as `Walk.serve` does, and puts the mass after every push on the record. -/
def serve : Nat → Nat → DenseMass K → PushQueue K → Recording (Session Γ) (DenseMass K) (DenseMass K)
  | 0, _, _, _ => throw .walkUnfinished
  | _, 0, m, _ => pure m
  | limit + 1, taken + 1, m, q => do
    match q.pop? with
    | none => pure m
    | some (head, q) =>
      let u := head.node
      let degree ← look (Walk.degree u)
      if !(entryAt m.residual u / degree == head.score) then serve limit (taken + 1) m q
      else if head.score ≤ o.epsilon then serve limit taken m q
      else
        let (links, total) ← look (Walk.weighLinks w u true)
        if total == 0 then
          note (m.absorb u)
          serve limit taken (m.absorb u) q
        else
          let m ← drain (fun m => o.epsilon < entryAt m.residual u / degree)
            ((PushOps.queued o).push u links total) bound m
          let q ← look (Walk.enqueue m q (distinctSorted (u :: links.map (·.1))))
          serve limit taken m q

variable {w o bound}

/-- The recorded service is the service with a record. -/
theorem erases_serve (limit taken : Nat) (m : DenseMass K) (q : PushQueue K) :
    (serve w o bound limit taken m q : Recording (Session Γ) _ _).Erases
      (Walk.serve w o bound limit taken m q) := by
  induction limit generalizing taken m q with
  | zero =>
    unfold serve Walk.serve
    exact erases_throw _
  | succ limit ih =>
    cases taken with
    | zero =>
      unfold serve Walk.serve
      exact erases_pure _
    | succ taken =>
      unfold serve Walk.serve
      rcases q.pop? with _ | ⟨head, q'⟩
      · exact erases_pure _
      refine (erases_look _).bind fun degree => ?_
      split
      · exact ih _ _ _
      split
      · exact ih _ _ _
      refine (erases_look _).bind fun shown => ?_
      obtain ⟨links, total⟩ := shown
      simp only
      split
      · exact erases_note_bind _ (ih _ _ _)
      have drained := erases_drain (σ := Session Γ)
        (fun m => o.epsilon < entryAt m.residual head.node / degree)
        ((PushOps.queued o).push head.node links total)
        (fun limit => (PushOps.queued o).drain o.epsilon degree head.node links total limit)
        (fun _ => rfl) (fun _ _ => PushOps.drain_succ _ _ _ _ _ _ _ _) bound m
      have onward := drained.bind fun m' => (erases_look
        (Walk.enqueue m' q' (distinctSorted (head.node :: links.map (·.1))))).bind
          fun q'' => ih taken m' q''
      rw [DenseMass.drainAll_eq]
      intro s record
      refine (onward s record).imp (fun same => same.trans ?_) fun same => same.trans ?_ <;>
      · cases (PushOps.queued o).drain o.epsilon degree head.node links total bound m <;> rfl

end

/-! ### Steps -/

section

variable {Γ : Type} [Walkable Γ] [KnowsLinks Γ] [LawfulWalkable Γ] {w : Weighting ℝ}
  {o : WalkOptions ℝ} {bound : Nat} {s : Session Γ} {u : Nat} {m : DenseMass ℝ}
  {record earlier : List (DenseMass ℝ)}

/-- To ask for the degree of a node that has been shown leaves the record alone, and the links that
are counted are known from then on. -/
theorem ends_degree (met : Met s.graph u) :
    Ends (look (Walk.degree u : Walk Γ ℝ)) s record fun r s' record' =>
      record' = record ∧ Asked s.graph s'.graph ∧
        ∀ d, r = .ok d → ∃ shown, KnowsLinks.known s'.graph u = some shown ∧ d = shown.length := by
  refine ⟨rfl, Asked.none.degree met, fun d done => ?_⟩
  exact (Walk.degree_known (Prod.ext done rfl)).2

/-- So does to weigh its links. -/
theorem ends_weighLinks (met : Met s.graph u) :
    Ends (look (Walk.weighLinks w u true : Walk Γ _)) s record fun r s' record' =>
      record' = record ∧ Asked s.graph s'.graph ∧
        ∀ links total, r = .ok (links, total) →
          outOf w s'.graph u = some links ∧ total = (links.map (·.2)).sum := by
  refine ⟨rfl, ?_, fun links total done => ?_⟩
  · obtain ⟨tally, asks⟩ := Walk.weighLinks_apply w u true s
    change Asked s.graph (Walk.weighLinks w u true s).2.graph
    rw [asks]
    exact Asked.none.links met
  · obtain ⟨-, sum, shown, known, rfl⟩ := Walk.weighLinks_known (Prod.ext done rfl)
    exact ⟨congrArg (Option.map _) known, sum⟩

/-- Making entries for nodes that have been shown asks for their degrees, and only those nodes come to
wait. -/
theorem ends_enqueue {nodes : List Nat} (met : ∀ v ∈ nodes, Met s.graph v) {q : PushQueue ℝ}
    (waits : ∀ e ∈ q, Met s.graph e.node) :
    Ends (look (Walk.enqueue m q nodes : Walk Γ _)) s record fun r s' record' =>
      record' = record ∧ Asked s.graph s'.graph ∧
        ∀ q', r = .ok q' → ∀ e ∈ q', Met s'.graph e.node := by
  unfold Walk.enqueue
  induction nodes generalizing s q with
  | nil =>
    refine ⟨rfl, .none, fun q' done => ?_⟩
    cases done
    exact waits
  | cons v rest ih =>
    rw [List.foldlM_cons, bind_assoc, look_bind]
    refine (ends_degree (met v (by simp))).bind ?_ ?_
    · rintro e s' record' ⟨same, asked, -⟩
      exact ⟨same, asked, fun q' done => by cases done⟩
    rintro d s' record' ⟨rfl, asked, -⟩
    have entered : ∀ e ∈ q.push { score := entryAt m.residual v / d, node := v },
        Met s'.graph e.node := by
      intro e member
      obtain rfl | member := PushQueue.mem_push member
      · exact (met v (by simp)).mono asked.grows
      · exact (waits e member).mono asked.grows
    refine (ih (fun v member => (met v (by simp [member])).mono asked.grows) entered).mono ?_
    rintro r s'' record'' ⟨same, asked', waits'⟩
    exact ⟨same, asked.trans asked', waits'⟩

/-- Serving a queue goes on from a record by pushes, however it ends. -/
theorem serve_reaches (limit taken : Nat) {q : PushQueue ℝ} (waits : ∀ e ∈ q, Met s.graph e.node) :
    Ends (serve w o bound limit taken m q) s (m :: earlier)
      ((Walk.world (Γ := Γ) DenseMass.ledger o w).Reaches s (m :: earlier) id) := by
  have lawful := PushOps.lawful_queued o
  induction limit generalizing taken m q s earlier with
  | zero => exact ⟨.refl .none, fun a equal => by cases equal⟩
  | succ limit ih =>
    cases taken with
    | zero => exact ends_pure_reaches (World.grows_refl _ s) rfl
    | succ taken =>
      unfold serve
      cases popped : q.pop? with
      | none => exact ends_pure_reaches (World.grows_refl _ s) rfl
      | some entry =>
        obtain ⟨head, q'⟩ := entry
        have met := waits head (PushQueue.pop?_eq_some popped).1
        have left : ∀ e ∈ q', Met s.graph e.node := fun e member =>
          waits e (PushQueue.mem_of_pop? popped member)
        refine (ends_degree met).bind ?_ ?_
        · rintro e s' record' ⟨rfl, asked, -⟩
          exact ⟨.refl asked, fun a equal => by cases equal⟩
        rintro d s₁ record' ⟨rfl, asked, counts⟩
        obtain ⟨shown, known, rfl⟩ := counts d rfl
        have left₁ : ∀ e ∈ q', Met s₁.graph e.node := fun e member => (left e member).mono asked.grows
        refine Ends.mono ?_ fun _ _ _ => .trans (.refl asked)
        split
        · exact ih _ left₁
        rename_i current
        split
        · exact ih _ left₁
        rename_i above
        -- the entry is as old as the residual, so the node is above the threshold
        have exceeds : o.epsilon < entryAt m.residual head.node / shown.length := by
          rw [show entryAt m.residual head.node / shown.length = head.score by simpa using current]
          exact lt_of_not_ge above
        refine (ends_weighLinks (met.mono asked.grows)).bind ?_ ?_
        · rintro e s' record' ⟨rfl, asked', -⟩
          exact ⟨.refl asked', fun a equal => by cases equal⟩
        rintro ⟨links, total⟩ s₂ record' ⟨rfl, asked', weighs⟩
        obtain ⟨isOut, rfl⟩ := weighs links total rfl
        have left₂ : ∀ e ∈ q', Met s₂.graph e.node := fun e member =>
          (left₁ e member).mono asked'.grows
        refine Ends.mono ?_ fun _ _ _ => .trans (.refl asked')
        simp only
        split
        · rename_i weightless
          have step : m.ledger.PushesTo o (outOf w s₂.graph) (m.absorb head.node).ledger := by
            refine ⟨head.node, links, shown.length, isOut, exceeds, ?_⟩
            rw [if_pos (eq_of_beq weightless)]
            exact lawful.absorb head.node m
          have rest : Ends (serve w o bound limit taken (m.absorb head.node) q') s₂
              (m.absorb head.node :: m :: earlier) _ := ih _ left₂
          exact rest.mono fun _ _ _ => .trans (.step .none step)
        · rename_i total
          have steps : ∀ m' : DenseMass ℝ,
              decide (o.epsilon < entryAt m'.residual head.node / shown.length) = true →
              m'.ledger.PushesTo o (outOf w s₂.graph)
                ((PushOps.queued o).push head.node links (links.map (·.2)).sum m').ledger := by
            intro m' exceeds'
            refine ⟨head.node, links, shown.length, isOut, of_decide_eq_true exceeds', ?_⟩
            rw [if_neg fun zero => total (beq_iff_eq.2 zero)]
            exact lawful.push head.node links _ m'
          refine (drain_reaches (W := Walk.world DenseMass.ledger o w) steps bound m).bind_reaches
            fun m' s₃ rest asked₃ => ?_
          have touched : ∀ v ∈ distinctSorted (head.node :: links.map (·.1)), Met s₃.graph v := by
            intro v member
            obtain rfl | member := List.mem_cons.1 (mem_distinctSorted member)
            · exact met.mono (asked.trans (asked'.trans asked₃)).grows
            · obtain ⟨l, isLink, rfl⟩ := List.mem_map.1 member
              obtain ⟨shown', known', rfl⟩ := Option.map_eq_some_iff.1 isOut
              obtain ⟨link, isShown, rfl⟩ := List.mem_map.1 isLink
              exact Met.mono asked₃.grows (.child known' isShown)
          refine (ends_enqueue touched fun e member => (left₂ e member).mono asked₃.grows).bind ?_ ?_
          · rintro e s' record' ⟨rfl, asked₄, -⟩
            exact ⟨.refl asked₄, fun a equal => by cases equal⟩
          rintro q'' s₄ record' ⟨rfl, asked₄, waits'⟩
          exact Ends.mono (ih _ (waits' q'' rfl)) fun _ _ _ => .trans (.refl asked₄)

end

end Recording

end ProofWalk
