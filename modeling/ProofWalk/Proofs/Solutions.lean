import ProofWalk.Answer
import ProofWalk.Proofs.Logic.Printing
import ProofWalk.Proofs.Prover.Questions

/-!
# Rows of answers

The answers to a query have a row for each text of a solution among the completed states with a score, and its
score is the sum of the scores of the states with this text. So they have a row for each tuple of bindings if
the texts show bindings unambiguously. If they do not, solutions with different bindings share a row.

## Main definitions

* `allShown` — what the nodes with a score show
* `scoresOf` — the scores of the nodes that show the same
* `ProofGraph.bound?` — the bindings at a node that completes the proof

## Main results

* `solutionScores_getElem?` — the score of a text
* `Answerer.answer_texts` — the rows of answers by texts
* `Answerer.answer_bindings` — the rows of answers by bindings
-/

namespace ProofWalk

variable {K : Type} [Scalar K]

/-! ### The scores of solutions -/

section

variable {T : Type} [DecidableEq T]

/-- What the nodes with a score show, in order. -/
def allShown (shown : Nat → Option T) (scores : List (Nat × K)) : List T :=
  scores.filterMap fun entry => shown entry.1

omit [Scalar K] [DecidableEq T] in
theorem mem_allShown {shown : Nat → Option T} {scores : List (Nat × K)} {t : T} :
    t ∈ allShown shown scores ↔ ∃ entry ∈ scores, shown entry.1 = some t :=
  List.mem_filterMap

/-- The scores of the nodes that show the same, in order. -/
def scoresOf (shown : Nat → Option T) (scores : List (Nat × K)) (t : T) : List K :=
  (scores.filter fun entry => shown entry.1 == some t).map (·.2)

omit [Scalar K] in
theorem scoresOf_append (shown : Nat → Option T) (scores scores' : List (Nat × K)) (t : T) :
    scoresOf shown (scores ++ scores') t = scoresOf shown scores t ++ scoresOf shown scores' t := by
  rw [scoresOf, List.filter_append, List.map_append, scoresOf, scoresOf]

omit [Scalar K] in
theorem scoresOf_eq_nil {shown : Nat → Option T} {scores : List (Nat × K)} {t : T} :
    scoresOf shown scores t = [] ↔ t ∉ allShown shown scores := by
  rw [scoresOf, List.map_eq_nil_iff, List.filter_eq_nil_iff, mem_allShown]
  simp

/-- The score of a text is the sum of the scores of the nodes that have it for their solution. -/
theorem solutionScores_getElem? (solution : Nat → Option String) (scores : List (Nat × K)) (text : String) :
    (solutionScores solution scores)[text]? =
      if scoresOf solution scores text = [] then none
      else some (Scalar.sum (scoresOf solution scores text)) := by
  induction scores using List.reverseRecOn with
  | nil => rfl
  | append_singleton scores entry ih =>
    obtain ⟨u, x⟩ := entry
    -- the last node adds to the score of its text, and to no other
    have last : solutionScores solution (scores ++ [(u, x)]) =
        (solution u).elim (solutionScores solution scores) fun text =>
          (solutionScores solution scores).insert text
            (((solutionScores solution scores)[text]?).getD 0 + x) := by
      simp only [solutionScores, List.foldl_append, List.foldl_cons, List.foldl_nil]
      cases solution u <;> rfl
    rw [last, scoresOf_append]
    by_cases own : solution u = some text
    · have single : scoresOf solution [(u, x)] text = [x] := by simp [scoresOf, own]
      have before : ((solutionScores solution scores)[text]?).getD 0 =
          Scalar.sum (scoresOf solution scores text) := by
        rw [ih]
        split
        · rename_i none
          rw [none]
          rfl
        · rfl
      rw [own, single, if_neg (by simp), Scalar.sum, List.foldl_append, ← Scalar.sum]
      change ((solutionScores solution scores).insert text _)[text]? = _
      rw [Std.TreeMap.getElem?_insert_self, before]
      rfl
    · have nothing : scoresOf solution [(u, x)] text = [] := by simp [scoresOf, own]
      rw [nothing, List.append_nil, ← ih]
      cases shown : solution u with
      | none => rfl
      | some other =>
        have apart : compare other text ≠ .eq := fun same => own (by
          rw [shown, Std.LawfulEqOrd.eq_of_compare same])
        change ((solutionScores solution scores).insert other _)[text]? = _
        rw [Std.TreeMap.getElem?_insert, if_neg apart]

section

variable {shown : Nat → Option T} {write : T → String} {scores : List (Nat × K)}

omit [Scalar K] in
/-- Different things that are shown have scores of their own, if their texts differ. -/
theorem scoresOf_write
    (apart : Set.InjOn write {t | t ∈ allShown shown scores}) {t : T}
    (member : t ∈ allShown shown scores) :
    scoresOf (fun u => (shown u).map write) scores (write t) = scoresOf shown scores t := by
  rw [scoresOf, scoresOf]
  refine congrArg (List.map _) (List.filter_congr fun entry isEntry => ?_)
  cases isShown : shown entry.1 with
  | none => rfl
  | some t' =>
    have member' := mem_allShown.2 ⟨entry, isEntry, isShown⟩
    have same : write t' = write t ↔ t' = t := ⟨apart member' member, congrArg write⟩
    simp [same]

/-- Each of the things that are shown has one row, with the sum of its scores, if their texts differ. -/
theorem solutionScores_perm
    (apart : Set.InjOn write {t | t ∈ allShown shown scores}) :
    (solutionScores (fun u => (shown u).map write) scores).toList.Perm
      ((allShown shown scores).dedup.map fun t => (write t, Scalar.sum (scoresOf shown scores t))) := by
  refine (List.perm_ext_iff_of_nodup ?_ ?_).2 fun row => ?_
  · refine Std.TreeMap.distinct_keys_toList.imp fun differ same => differ ?_
    rw [same]
    exact Std.ReflCmp.compare_self
  · refine (List.nodup_dedup _).map_on fun t member t' member' same => ?_
    exact apart (List.mem_dedup.1 member) (List.mem_dedup.1 member') (Prod.mk.inj same).1
  · obtain ⟨text, x⟩ := row
    rw [Std.TreeMap.mem_toList_iff_getElem?_eq_some, solutionScores_getElem?, List.mem_map]
    constructor
    · intro found
      split at found
      · cases found
      rename_i some
      have isText : text ∈ allShown (fun u => (shown u).map write) scores :=
        not_not.1 fun absent => some (scoresOf_eq_nil.2 absent)
      obtain ⟨entry, isEntry, written⟩ := mem_allShown.1 isText
      obtain ⟨t, isShown, rfl⟩ := Option.map_eq_some_iff.1 written
      have member := mem_allShown.2 ⟨entry, isEntry, isShown⟩
      rw [scoresOf_write apart member] at found
      exact ⟨t, List.mem_dedup.2 member, Prod.ext rfl (Option.some.inj found)⟩
    · rintro ⟨t, member, isRow⟩
      obtain ⟨rfl, rfl⟩ := Prod.mk.inj isRow
      have member := List.mem_dedup.1 member
      rw [scoresOf_write apart member, if_neg fun none => scoresOf_eq_nil.1 none member]

end

end

/-! ### Rows -/

/-- Ranks change neither the solutions nor their scores. -/
theorem rankFrom_rows (before : Nat) (last : Option (K × Nat)) (solutions : List (String × K)) :
    (rankFrom before last solutions).map (fun row => (row.solution, row.score)) = solutions := by
  induction solutions generalizing before last with
  | nil => rfl
  | cons row rest ih =>
    simp only [rankFrom, List.map_cons, ih]

theorem ranked_rows (solutions : List (String × K)) :
    ((ranked none (sorted solutions)).map fun row => (row.solution, row.score)).Perm solutions := by
  rw [ranked, rankFrom_rows, sorted]
  exact List.mergeSort_perm ..

/-! ### Bindings -/

namespace ProofGraph

variable {g : ProofGraph}

/-- What the variables of the query are bound to at a node whose state completes the proof. -/
def bound? (g : ProofGraph) (u : Nat) : Option (List (Option Term)) :=
  (g.store.state? u).bind fun s => if s.completed then some (g.code.bindings s) else none

theorem solution?_eq (g : ProofGraph) :
    Answerer.solution? g = fun u => (g.bound? u).map fun values => (g.labelled.query.substitute values).text := by
  funext u
  rw [Answerer.solution?, bound?]
  cases g.store.state? u with
  | none => rfl
  | some s =>
    change (if s.completed then _ else _) = Option.map _ (if s.completed then _ else _)
    split <;> rfl

/-- A new graph has as many registers for its query as the query has variables. -/
theorem rest_new {kind : GraphKind} {labelled : LabelledExample} {program : Program}
    {relations : List Relation} {features : FeatureTable}
    (made : ProofGraph.new kind labelled program relations features = .ok g) :
    g.labelled = labelled ∧ g.code.queryRegisters = labelled.query.vars.length := by
  unfold ProofGraph.new at made
  split at made
  · cases made
  rename_i start m started
  cases made
  refine ⟨rfl, ?_⟩
  have code : m.code = (Machine.new program relations).installed labelled.query :=
    congrArg (·.2.code) started.symm
  rw [code]
  rfl

/-- The bindings at a node are as many as the query has variables, and all are to constants. -/
theorem length_of_bound? {u : Nat} {values : List (Option Term)} (bound : g.bound? u = some values) :
    values.length = g.code.queryRegisters ∧ ∀ t, some t ∈ values → ∃ c, t = .constant c := by
  obtain ⟨s, -, isBound⟩ := Option.bind_eq_some_iff.1 bound
  split at isBound
  · cases isBound
    refine ⟨by rw [Code.bindings, List.length_map, List.length_range], fun t member => ?_⟩
    obtain ⟨r, -, isTerm⟩ := List.mem_map.1 member
    obtain ⟨cell, -, isConstant⟩ := Option.bind_eq_some_iff.1 isTerm
    obtain ⟨c, -, rfl⟩ := Option.map_eq_some_iff.1 isConstant
    exact ⟨c, rfl⟩
  · cases isBound

end ProofGraph

namespace Answerer

variable {a : Answerer} {p : Prover K} {features : FeatureTable} {e : LabelledExample} {g₀ g : ProofGraph}
  {scores : Scores K}

/-- The rows of answers that are not normalized nor cut are the scores of solutions. -/
theorem answer_rows (whole : a.normalize = false) (all : a.top = none)
    (made : p.makeGraph (.unlabelled e.query) a.program a.relations features = .ok g₀)
    (proved : p.proveOn g₀ = (.ok scores, g)) :
    ∃ answers, a.answer p features e = (.ok answers, g.features) ∧ answers.query = e.query.text ∧
      (answers.answers.map fun row => (row.solution, row.score)).Perm
        (solutionScores (solution? g) scores.toList).toList := by
  unfold answer
  rw [made]
  simp only [proved, rows, whole, all]
  exact ⟨_, rfl, rfl, ranked_rows _⟩

/-- Answers have one row for each text of a solution, with the sum of the scores of its nodes. -/
theorem answer_texts (whole : a.normalize = false) (all : a.top = none)
    (made : p.makeGraph (.unlabelled e.query) a.program a.relations features = .ok g₀)
    (proved : p.proveOn g₀ = (.ok scores, g)) :
    ∃ answers, a.answer p features e = (.ok answers, g.features) ∧ answers.query = e.query.text ∧
      (answers.answers.map fun row => (row.solution, row.score)).Perm
        ((allShown (solution? g) scores.toList).dedup.map fun text =>
          (text, Scalar.sum (scoresOf (solution? g) scores.toList text))) := by
  obtain ⟨answers, answered, query, rows⟩ := answer_rows whole all made proved
  refine ⟨answers, answered, query, rows.trans ?_⟩
  have texts : (solutionScores (fun u => (solution? g u).map id) scores.toList).toList.Perm _ :=
    solutionScores_perm fun _ _ _ _ same => same
  simpa using texts

/-- Answers have one row for each tuple of bindings, with the sum of the scores of its nodes, if the constants
of the tuples hold no comma and no closing parenthesis and are not names of variables of the query. -/
theorem answer_bindings (whole : a.normalize = false) (all : a.top = none)
    (names : ∀ v ∈ e.query.vars, Text.Unbroken v.name.toList)
    (made : p.makeGraph (.unlabelled e.query) a.program a.relations features = .ok g₀)
    (proved : p.proveOn g₀ = (.ok scores, g))
    (constants : ∀ values ∈ allShown g.bound? scores.toList, ∀ c, some (.constant c) ∈ values →
      Text.Unbroken c.toList ∧ ∀ v ∈ e.query.vars, v.name ≠ c) :
    ∃ answers, a.answer p features e = (.ok answers, g.features) ∧ answers.query = e.query.text ∧
      (answers.answers.map fun row => (row.solution, row.score)).Perm
        ((allShown g.bound? scores.toList).dedup.map fun values =>
          ((e.query.substitute values).text, Scalar.sum (scoresOf g.bound? scores.toList values))) := by
  obtain ⟨answers, answered, query, rows⟩ := answer_rows whole all made proved
  refine ⟨answers, answered, query, rows.trans ?_⟩
  -- the graph keeps its query while it is walked on
  obtain ⟨labelled, registers⟩ := ProofGraph.rest_new made
  have asked := p.questioned_proveOn g₀
  rw [proved] at asked
  obtain ⟨kept, code⟩ := asked.rest
  have isQuery : g.labelled.query = e.query := by
    rw [kept, labelled]
    rfl
  have told : ∀ values ∈ allShown g.bound? scores.toList, e.query.Unambiguous values := by
    intro values member
    obtain ⟨entry, -, bound⟩ := mem_allShown.1 member
    obtain ⟨length, areConstants⟩ := ProofGraph.length_of_bound? bound
    refine ⟨by rw [length, code, registers]; rfl, fun t isValue => ?_⟩
    obtain ⟨c, rfl⟩ := areConstants t isValue
    exact ⟨c, rfl, constants values member c isValue⟩
  rw [g.solution?_eq, isQuery]
  exact solutionScores_perm fun values member values' member' same =>
    Query.substitute_injective names (told values member) (told values' member') same

end Answerer

end ProofWalk
