import ProofWalk.Proofs.Exact
import ProofWalk.Proofs.Solutions

/-!
# How answers are ranked

The rows of answers stand in the order of falling scores, those of equal score in the order of their texts, and
the rank of a row counts the rows with a greater score. A cut keeps the first rows as they are. Scaling the
scores to sum to one changes neither the order nor the ranks.

All scores are exact. On doubles the sums of solutions depend on the order in which states are added up.

## Main definitions

* `Precedes` — the order of rows
* `greater` — how many solutions have a greater score

## Main results

* `sorted_pairwise` — sorting puts solutions in order
* `ranked_some` — a cut keeps the first rows
* `ranked_eq` — ranks in closed form
* `Answerer.rows_ranked` — the rows of answers, cut or not, normalized or not
-/

namespace ProofWalk

variable {solutions : List (String × ℝ)}

/-! ### Order -/

/-- A solution stands before another: its score is greater, or it is the same and its text comes first. -/
def Precedes (x y : String × ℝ) : Prop := y.2 < x.2 ∨ y.2 = x.2 ∧ x.1 < y.1

theorem Precedes.score_le {x y : String × ℝ} (precedes : Precedes x y) : y.2 ≤ x.2 :=
  precedes.elim le_of_lt fun tie => tie.1.le

/-- What sorting compares. -/
theorem isLE_order_then {x y : String × ℝ} :
    ((Scalar.order y.2 x.2).then (compare x.1 y.1)).isLE ↔ y.2 < x.2 ∨ y.2 = x.2 ∧ x.1 ≤ y.1 := by
  have texts : (compare x.1 y.1).isLE ↔ x.1 ≤ y.1 := by
    rw [Ordering.isLE_iff_eq_lt_or_eq_eq, le_iff_lt_or_eq]
    exact or_congr compareOfLessAndEq_eq_lt Std.compare_eq_iff_eq
  rw [Ordering.isLE_then_iff_or, texts]
  exact or_congr compare_lt_iff_lt (and_congr_left' Std.compare_eq_iff_eq)

theorem sorted_perm (solutions : List (String × ℝ)) : (sorted solutions).Perm solutions :=
  List.mergeSort_perm ..

/-- Sorting puts solutions with different texts in order. -/
theorem sorted_pairwise (texts : solutions.Pairwise fun x y => x.1 ≠ y.1) :
    (sorted solutions).Pairwise Precedes := by
  -- what is compared is transitive and total, but two solutions may be equal in it
  have ordered : (sorted solutions).Pairwise fun x y =>
      ((Scalar.order y.2 x.2).then (compare x.1 y.1)).isLE = true := by
    refine List.pairwise_mergeSort (fun x y z first next => ?_) (fun x y => ?_) solutions
    · rw [isLE_order_then] at first next ⊢
      rcases first with greater | ⟨tie, text⟩ <;> rcases next with greater' | ⟨tie', text'⟩
      · exact .inl (greater'.trans greater)
      · exact .inl (tie'.trans_lt greater)
      · exact .inl (greater'.trans_eq tie)
      · exact .inr ⟨tie'.trans tie, text.trans text'⟩
    · rw [Bool.or_eq_true, isLE_order_then, isLE_order_then]
      rcases lt_trichotomy x.2 y.2 with less | tie | greater
      · exact .inr (.inl less)
      · exact (le_total x.1 y.1).imp (fun text => .inr ⟨tie.symm, text⟩) fun text => .inr ⟨tie, text⟩
      · exact .inl (.inl greater)
  -- their texts tell them apart
  have differ : (sorted solutions).Pairwise fun x y => x.1 ≠ y.1 :=
    ((sorted_perm solutions).pairwise_iff fun differ => differ.symm).2 texts
  refine (ordered.and differ).imp fun ⟨order, differ⟩ => ?_
  exact (isLE_order_then.1 order).imp_right fun ⟨tie, text⟩ => ⟨tie, lt_of_le_of_ne text differ⟩

/-! ### Ranks -/

section

variable {K : Type} [Scalar K]

/-- The rank of the solution that comes next. -/
def nextRank (before : Nat) (last : Option (K × Nat)) (score : K) : Nat :=
  match last with
  | some (s, r) => if s == score then r else before + 1
  | none => before + 1

theorem rankFrom_cons (before : Nat) (last : Option (K × Nat)) (x : String × K) (rest : List (String × K)) :
    rankFrom before last (x :: rest) =
      ⟨nextRank before last x.2, x.2, x.1⟩ ::
        rankFrom (before + 1) (some (x.2, nextRank before last x.2)) rest := rfl

theorem rankFrom_take (before : Nat) (last : Option (K × Nat)) (k : Nat) (solutions : List (String × K)) :
    rankFrom before last (solutions.take k) = (rankFrom before last solutions).take k := by
  induction solutions generalizing before last k with
  | nil => rw [List.take_nil, rankFrom, List.take_nil]
  | cons x rest ih =>
    cases k with
    | zero => rw [List.take_zero, List.take_zero, rankFrom]
    | succ k => rw [List.take_succ_cons, rankFrom_cons, rankFrom_cons, List.take_succ_cons, ih]

/-- A cut keeps the first rows with their ranks. -/
theorem ranked_some (k : Nat) (solutions : List (String × K)) :
    ranked (some k) solutions = (ranked none solutions).take k :=
  rankFrom_take 0 none k solutions

end

/-- Solutions in the order of falling scores. -/
def Falling (solutions : List (String × ℝ)) : Prop := solutions.Pairwise fun x y => y.2 ≤ x.2

/-- How many solutions have a score greater than the one given. -/
noncomputable def greater (solutions : List (String × ℝ)) (score : ℝ) : Nat :=
  solutions.countP fun x => score < x.2

/-- Behind a solution no score is greater than its own. -/
theorem greater_append {front rest : List (String × ℝ)} {x : String × ℝ}
    (falling : Falling (front ++ x :: rest)) :
    greater (front ++ x :: rest) x.2 = greater front x.2 := by
  have behind : greater (x :: rest) x.2 = 0 := by
    refine List.countP_eq_zero.2 fun y member => ?_
    rw [decide_eq_true_eq, not_lt]
    obtain rfl | later := List.mem_cons.1 member
    · exact le_rfl
    · exact List.rel_of_pairwise_cons (List.pairwise_append.1 falling).2.1 later
  rw [greater, List.countP_append, ← greater, ← greater, behind, Nat.add_zero]

/-- The solutions in front of one have greater scores, unless the last of them has the same. -/
theorem greater_eq_length {front rest : List (String × ℝ)} {x : String × ℝ}
    (falling : Falling (front ++ x :: rest)) (differs : ∀ y ∈ front.getLast?, y.2 ≠ x.2) :
    greater front x.2 = front.length := by
  obtain ⟨fallingFront, -, before⟩ := List.pairwise_append.1 falling
  obtain rfl | ⟨first, z, rfl⟩ := front.eq_nil_or_concat'
  · rfl
  have last : x.2 < z.2 := lt_of_le_of_ne (before z (by simp) x (by simp)) (differs z (by simp)).symm
  refine List.countP_eq_length.2 fun y member => decide_eq_true_iff.2 ?_
  obtain isFirst | isLast := List.mem_append.1 member
  · exact last.trans_le ((List.pairwise_append.1 fallingFront).2.2 y isFirst z (by simp))
  · rwa [List.mem_singleton.1 isLast]

/-- The ranks of falling solutions behind others. What is remembered of those in front of them is the score and
the rank of the last. -/
theorem rankFrom_eq {front rest : List (String × ℝ)} (falling : Falling (front ++ rest)) :
    rankFrom front.length (front.getLast?.map fun x => (x.2, 1 + greater front x.2)) rest =
      rest.map fun x => ⟨1 + greater (front ++ rest) x.2, x.2, x.1⟩ := by
  -- by induction on what is still to come, while what is in front grows at its end
  induction rest generalizing front with
  | nil => rfl
  | cons x rest ih =>
    have rank : nextRank front.length (front.getLast?.map fun y => (y.2, 1 + greater front y.2)) x.2 =
        1 + greater (front ++ x :: rest) x.2 := by
      rw [greater_append falling]
      cases last : front.getLast? with
      | none =>
        rw [List.getLast?_eq_none_iff.1 last]
        rfl
      | some y =>
        change (if y.2 == x.2 then _ else _) = _
        split
        · rename_i tie
          rw [eq_of_beq tie]
        · rename_i differs
          rw [greater_eq_length falling fun z isLast => ?_, Nat.add_comm]
          rw [last] at isLast
          cases isLast
          exact fun tie => differs (beq_iff_eq.2 tie)
    -- the solution itself is what is remembered for those behind it
    have next := @ih (front ++ [x]) (by rwa [List.append_assoc])
    have remembered : greater (front ++ [x]) x.2 = greater (front ++ x :: rest) x.2 := by
      rw [greater_append falling]
      exact greater_append (List.Pairwise.sublist (by simp) falling)
    rw [List.length_append, List.getLast?_concat, List.append_assoc, Option.map_some, remembered] at next
    rw [rankFrom_cons, rank, List.map_cons]
    exact congrArg _ next

/-- On falling solutions a rank is one more than the number of greater scores. -/
theorem ranked_eq (falling : Falling solutions) :
    ranked none solutions = solutions.map fun x => ⟨1 + greater solutions x.2, x.2, x.1⟩ :=
  @rankFrom_eq [] solutions falling

/-! ### Scaled scores -/

/-- A solution with its score divided by a total. -/
noncomputable def share (total : ℝ) (x : String × ℝ) : String × ℝ := (x.1, x.2 / total)

/-- Positive scaling keeps the order. -/
theorem sorted_share {total : ℝ} (positive : 0 < total) (solutions : List (String × ℝ)) :
    sorted (solutions.map (share total)) = (sorted solutions).map (share total) := by
  refine (List.map_mergeSort fun x _ y _ => Bool.eq_iff_iff.2 ?_).symm
  rw [isLE_order_then, isLE_order_then]
  exact or_congr (div_lt_div_iff_of_pos_right positive).symm
    (and_congr_left' (div_left_inj' positive.ne').symm)

/-- Scaling keeps ties apart and together, and so the ranks. -/
theorem rankFrom_share {total : ℝ} (positive : 0 < total) (before : Nat) (last : Option (ℝ × Nat))
    (solutions : List (String × ℝ)) :
    rankFrom before (last.map fun (s, r) => (s / total, r)) (solutions.map (share total)) =
      (rankFrom before last solutions).map fun x => { x with score := x.score / total } := by
  have rank : ∀ before last score,
      nextRank before (Option.map (fun (s, r) => (s / total, r)) last) (score / total) =
        nextRank before last score := by
    intro before last score
    cases last with
    | none => rfl
    | some remembered =>
      have ties : (remembered.1 / total == score / total) = (remembered.1 == score) := by
        rw [Bool.eq_iff_iff, beq_iff_eq, beq_iff_eq, div_left_inj' positive.ne']
      simp only [nextRank, Option.map_some, ties]
  induction solutions generalizing before last with
  | nil => rfl
  | cons x rest ih =>
    rw [List.map_cons, rankFrom_cons, rankFrom_cons, List.map_cons, ← ih]
    simp only [share, rank, Option.map_some]

theorem normalized_eq (solutions : List (String × ℝ)) :
    normalized solutions =
      if 0 < (solutions.map (·.2)).sum then solutions.map (share (solutions.map (·.2)).sum) else solutions := by
  rw [normalized, Scalar.sum_real]
  rfl

/-! ### Solutions of states -/

variable {solution : Nat → Option String} {scores : List (Nat × ℝ)}

/-- The score of all completed states together. -/
noncomputable def totalScore (solution : Nat → Option String) (scores : List (Nat × ℝ)) : ℝ :=
  ((scores.filter fun entry => (solution entry.1).isSome).map (·.2)).sum

theorem sum_scoresOf {texts : Finset String} (all : ∀ text ∈ allShown solution scores, text ∈ texts) :
    ∑ text ∈ texts, (scoresOf solution scores text).sum = totalScore solution scores := by
  induction scores with
  | nil => exact Finset.sum_eq_zero fun _ _ => rfl
  | cons entry scores ih =>
    obtain ⟨u, x⟩ := entry
    -- a state adds its score to one text only, and to none if it is not completed
    have step : ∀ text, (scoresOf solution ((u, x) :: scores) text).sum =
        (if solution u = some text then x else 0) + (scoresOf solution scores text).sum := by
      intro text
      rw [← List.singleton_append, scoresOf_append, List.sum_append]
      by_cases own : solution u = some text <;> simp [scoresOf, own]
    have rest := ih fun text member => all text (by
      obtain ⟨entry, isEntry, shown⟩ := mem_allShown.1 member
      exact mem_allShown.2 ⟨entry, List.mem_cons_of_mem _ isEntry, shown⟩)
    rw [Finset.sum_congr rfl fun text _ => step text, Finset.sum_add_distrib, rest, totalScore, totalScore]
    cases shown : solution u with
    | none => simp [shown]
    | some text =>
      have isText : text ∈ texts := all text (mem_allShown.2 ⟨_, List.mem_cons_self, shown⟩)
      simp [shown, isText]

/-- The scores of solutions are the scores of completed states, added up by their texts. -/
theorem solutionScores_toList_perm (solution : Nat → Option String) (scores : List (Nat × ℝ)) :
    (solutionScores solution scores).toList.Perm
      ((allShown solution scores).dedup.map fun text => (text, (scoresOf solution scores text).sum)) := by
  have rows : (solutionScores (fun u => (solution u).map id) scores).toList.Perm _ :=
    solutionScores_perm fun _ _ _ _ same => same
  simpa [Scalar.sum_real] using rows

theorem sum_solutionScores (solution : Nat → Option String) (scores : List (Nat × ℝ)) :
    ((solutionScores solution scores).toList.map (·.2)).sum = totalScore solution scores := by
  rw [((solutionScores_toList_perm solution scores).map _).sum_eq, List.map_map]
  have total := @sum_scoresOf solution scores (allShown solution scores).dedup.toFinset fun text member =>
    List.mem_toFinset.2 (List.mem_dedup.2 member)
  rwa [List.sum_toFinset _ (List.nodup_dedup _)] at total

/-! ### Rows -/

namespace Answerer

/-- A row stands before another. -/
def RowPrecedes (x y : Answer ℝ) : Prop := y.score < x.score ∨ y.score = x.score ∧ x.solution < y.solution

/-- The solutions with the scores by which they are ranked. -/
noncomputable def entries (a : Answerer) (solution : Nat → Option String) (scores : List (Nat × ℝ)) :
    List (String × ℝ) :=
  let solutions := (solutionScores solution scores).toList
  if a.normalize then normalized solutions else solutions

theorem rows_some (a : Answerer) (solution : Nat → Option String) (scores : List (Nat × ℝ)) (k : Nat) :
    ({ a with top := some k } : Answerer).rows solution scores =
      (({ a with top := none } : Answerer).rows solution scores).take k :=
  ranked_some k _

/-- All rows that there are, before any cut, hold the rows. -/
theorem rows_sublist (a : Answerer) (solution : Nat → Option String) (scores : List (Nat × ℝ)) :
    (a.rows solution scores).Sublist (({ a with top := none } : Answerer).rows solution scores) := by
  obtain ⟨program, relations, normalize, top⟩ := a
  cases top with
  | none => exact .refl _
  | some k =>
    rw [rows_some ⟨program, relations, normalize, none⟩]
    exact List.take_sublist ..

theorem entries_texts (a : Answerer) (solution : Nat → Option String) (scores : List (Nat × ℝ)) :
    (a.entries solution scores).Pairwise fun x y => x.1 ≠ y.1 := by
  have texts : (solutionScores solution scores).toList.Pairwise fun x y => x.1 ≠ y.1 :=
    Std.TreeMap.distinct_keys_toList.imp fun differ same => differ (Std.compare_eq_iff_eq.2 same)
  simp only [entries, normalized_eq]
  split
  · split
    · exact List.pairwise_map.2 texts
    · exact texts
  · exact texts

theorem entries_sorted (a : Answerer) (solution : Nat → Option String) (scores : List (Nat × ℝ)) :
    (sorted (a.entries solution scores)).Pairwise Precedes :=
  sorted_pairwise (a.entries_texts solution scores)

/-- All rows in closed form. -/
theorem rows_none (a : Answerer) (solution : Nat → Option String) (scores : List (Nat × ℝ)) :
    ({ a with top := none } : Answerer).rows solution scores =
      (sorted (a.entries solution scores)).map fun x =>
        ⟨1 + greater (sorted (a.entries solution scores)) x.2, x.2, x.1⟩ :=
  ranked_eq ((a.entries_sorted solution scores).imp Precedes.score_le)

/-- The scores of all raw rows add up to those of the completed states. -/
theorem sum_rows (a : Answerer) (solution : Nat → Option String) (scores : List (Nat × ℝ)) :
    ((({ a with normalize := false, top := none } : Answerer).rows solution scores).map (·.score)).sum =
      totalScore solution scores := by
  have entries := ((ranked_rows (solutionScores solution scores).toList).map (·.2)).sum_eq
  rw [List.map_map] at entries
  exact entries.trans (sum_solutionScores solution scores)

/-- Normalizing divides the scores of all rows by their total, if it is positive. -/
theorem rows_normalized (a : Answerer) (solution : Nat → Option String) (scores : List (Nat × ℝ)) :
    ({ a with normalize := true, top := none } : Answerer).rows solution scores =
      if 0 < totalScore solution scores then
        (({ a with normalize := false, top := none } : Answerer).rows solution scores).map fun x =>
          { x with score := x.score / totalScore solution scores }
      else ({ a with normalize := false, top := none } : Answerer).rows solution scores := by
  change ranked none (sorted (normalized _)) = if _ then (ranked none _).map _ else ranked none _
  rw [normalized_eq, sum_solutionScores]
  split
  · rename_i positive
    rw [sorted_share positive]
    exact rankFrom_share positive 0 none _
  · rfl

/-- How solutions are ranked. Rows stand in the order of falling scores, those of equal score in the order of
their texts; the rank of a row is one more than the number of solutions with a greater score, whether these are
cut or not; a cut keeps the first rows. All raw rows are the texts of completed states with the sums of their
scores. If the total is positive, normalized scores add up to one and are the raw scores divided by the total,
under the same ranks and in the same order; if it is not, nothing is normalized. -/
theorem rows_ranked (a : Answerer) (solution : Nat → Option String) (scores : List (Nat × ℝ)) :
    let whole := ({ a with top := none } : Answerer).rows solution scores
    let raw := ({ a with normalize := false, top := none } : Answerer).rows solution scores
    let normal := ({ a with normalize := true, top := none } : Answerer).rows solution scores
    let total := totalScore solution scores
    (a.rows solution scores).Pairwise RowPrecedes ∧
      (∀ x ∈ a.rows solution scores, x.rank = 1 + whole.countP fun y => x.score < y.score) ∧
      (∀ k, ({ a with top := some k } : Answerer).rows solution scores = whole.take k) ∧
      (raw.map fun x => (x.solution, x.score)).Perm
        ((allShown solution scores).dedup.map fun text => (text, (scoresOf solution scores text).sum)) ∧
      (0 < total → (normal.map (·.score)).sum = 1 ∧
        normal = raw.map fun x => { x with score := x.score / total }) ∧
      (total ≤ 0 → normal = raw) := by
  intro whole raw normal total
  have rawRows : (raw.map fun x => (x.solution, x.score)).Perm
      ((allShown solution scores).dedup.map fun text => (text, (scoresOf solution scores text).sum)) :=
    (ranked_rows _).trans (solutionScores_toList_perm solution scores)
  refine ⟨?order, ?ranks, a.rows_some solution scores, rawRows, ?positive, ?negative⟩
  case order =>
    refine List.Pairwise.sublist (a.rows_sublist solution scores) ?_
    rw [rows_none]
    exact List.pairwise_map.2 (a.entries_sorted solution scores)
  case ranks =>
    intro x member
    have inside : x ∈ whole := (a.rows_sublist solution scores).subset member
    simp only [whole, rows_none] at inside ⊢
    obtain ⟨entry, -, rfl⟩ := List.mem_map.1 inside
    rw [List.countP_map]
    rfl
  case positive =>
    intro positive
    have divided : normal = raw.map fun x => { x with score := x.score / total } :=
      (a.rows_normalized solution scores).trans (if_pos positive)
    have sum : (raw.map (·.score)).sum = total := a.sum_rows solution scores
    refine ⟨?_, divided⟩
    calc (normal.map (·.score)).sum
        = (raw.map fun x => x.score * total⁻¹).sum := by
          rw [divided, List.map_map]
          exact congrArg List.sum (List.map_congr_left fun x _ => div_eq_mul_inv ..)
      _ = total * total⁻¹ := by rw [List.sum_map_mul_right, sum]
      _ = 1 := mul_inv_cancel₀ positive.ne'
  case negative =>
    exact fun notPositive => (a.rows_normalized solution scores).trans (if_neg notPositive.not_gt)

/-- Two states that share a solution, one that has another, and one that has none. -/
def tiedSolution (u : Nat) : Option String := ["a", "b", "a"][u]?

/-- Their scores. -/
def tiedScores : List (Nat × ℝ) := [(0, 1), (1, 1 + 1), (2, 1), (3, 1)]

/-- Scores that tie only once those of a solution are added up: both solutions come first. -/
theorem rows_ranked_tied :
    let rows := (⟨.empty, [], true, none⟩ : Answerer).rows tiedSolution tiedScores
    (rows.map (·.score)).sum = 1 ∧ ∀ x ∈ rows, x.rank = 1 ∧ x.score = 1 / 2 := by
  intro rows
  obtain ⟨-, ranks, -, raw, normal, -⟩ := rows_ranked ⟨.empty, [], true, none⟩ tiedSolution tiedScores
  have total : totalScore tiedSolution tiedScores = 4 := by
    change ([1, 1 + 1, 1] : List ℝ).sum = 4
    norm_num
  obtain ⟨sum, divided⟩ := normal (by rw [total]; norm_num)
  have halves : ∀ x ∈ rows, x.score = 1 / 2 := by
    intro x member
    change x ∈ (⟨.empty, [], true, none⟩ : Answerer).rows tiedSolution tiedScores at member
    rw [divided] at member
    obtain ⟨y, isRaw, rfl⟩ := List.mem_map.1 member
    have isText := raw.subset (List.mem_map_of_mem isRaw)
    change (y.solution, y.score) ∈ [("b", ([1 + 1] : List ℝ).sum), ("a", ([1, 1] : List ℝ).sum)] at isText
    have isTwo : y.score = 2 := by
      norm_num at isText
      exact isText.elim (·.2) (·.2)
    change y.score / totalScore tiedSolution tiedScores = 1 / 2
    rw [isTwo, total]
    norm_num
  refine ⟨sum, fun x member => ⟨?_, halves x member⟩⟩
  have none : (rows.countP fun y => x.score < y.score) = 0 := List.countP_eq_zero.2 fun y member' => by
    rw [halves x member, halves y member', decide_eq_true_eq]
    exact lt_irrefl _
  rw [ranks x member]
  exact congrArg (1 + ·) none

end Answerer

end ProofWalk
