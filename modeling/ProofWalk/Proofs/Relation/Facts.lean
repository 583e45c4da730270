import ProofWalk.Proofs.Resolution.Derivation
import ProofWalk.Relation.FactTable

/-!
# What a fact table answers

A fact table holds the facts that were added to it, and a look-up gives those of a predicate that
agree with the call, in the order in which they were added. The indexes only narrow the search: a row
that agrees with a bound argument stands in the index list of this argument, whichever list is the
shortest.

## Main definitions

* `FactTable.Stores` — the facts that a table holds

## Main results

* `FactTable.Stores.add` — adding a fact
* `FactTable.Stores.lookup_eq` — what a look-up gives
* `FactTable.exists_stores_of_parse?` — a table that is read holds some facts
-/

namespace ProofWalk

/-- The label of the predicate that a fact is about. -/
def Fact.label (f : Fact) : String := predicateLabel f.functor f.args.length

/-- The positions of the rows that have a constant at a place. -/
def positions (rows : List (List String × Float)) (place : Nat) (c : String) : List Nat :=
  (List.range rows.length).filter fun i => (rows[i]?.bind fun row => row.1[place]?) = some c

theorem positions_append (rows : List (List String × Float)) (row : List String × Float)
    (place : Nat) (c : String) :
    positions (rows ++ [row]) place c =
      positions rows place c ++ if row.1[place]? = some c then [rows.length] else [] := by
  unfold positions
  rw [List.length_append, List.length_singleton, List.range_succ, List.filter_append]
  congr 1
  · refine List.filter_congr fun i inside => ?_
    rw [List.getElem?_append_left (List.mem_range.1 inside)]
  · by_cases here : row.1[place]? = some c <;> simp [here]

/-- Looking up every position gives the rows that satisfy a predicate, and leaving out positions at
which it fails makes no difference. -/
theorem filterMap_positions {α : Type} (rows : List α) (p : α → Bool) (q : Nat → Bool)
    (enough : ∀ i row, rows[i]? = some row → p row → q i) :
    ((List.range rows.length).filter q).filterMap (fun i => rows[i]?.filter p) = rows.filter p := by
  have all : (List.range rows.length).map (fun i => rows[i]?) = rows.map some := by
    refine List.ext_getElem? fun i => ?_
    rw [List.getElem?_map, List.getElem?_map]
    by_cases inside : i < rows.length
    · rw [List.getElem?_range inside, List.getElem?_eq_getElem inside]
      simp [inside]
    · simp [inside]
  have same : (fun i => if q i = true then rows[i]?.filter p else none) =
      Option.filter p ∘ fun i => rows[i]? := by
    funext i
    rw [Function.comp_apply]
    split
    · rfl
    · rename_i excluded
      cases row : rows[i]? with
      | none => rfl
      | some a =>
        have fails : p a = false := Bool.eq_false_iff.2 fun holds => excluded (enough i a row holds)
        exact (if_neg (by simp [fails])).symm
  rw [List.filterMap_filter, same, ← List.filterMap_map, all, List.filterMap_map,
    ← List.filterMap_eq_filter]
  refine List.filterMap_congr fun a _ => ?_
  cases holds : p a <;> simp [Option.guard, holds]

/-- A tuple that agrees with a call is as long. -/
theorem length_eq_of_agrees {values : List String} {args : CallArgs} (agree : agrees values args) :
    values.length = args.length := by
  induction args generalizing values with
  | nil =>
    cases values with
    | nil => rfl
    | cons v values => cases agree
  | cons a rest ih =>
    cases values with
    | nil => cases agree
    | cons v values => exact congrArg (· + 1) (ih (Bool.and_eq_true_iff.1 agree).2)

namespace IndexedRows

/-- The rows that an indexed collection holds, every index list being complete. -/
structure Stores (t : IndexedRows) (rows : List (List String × Float)) : Prop where
  content : t.rows.toList = rows
  index : ∀ place c, (t.hits place c).toList = positions rows place c

variable {t : IndexedRows} {rows : List (List String × Float)}

theorem stores_empty : IndexedRows.empty.Stores [] where
  content := rfl
  index place c := by simp [hits, IndexedRows.empty, positions]

/-- A row that is added stands behind the others in the index lists of its constants. -/
theorem toList_hits_insert (t : IndexedRows) (values : List String) (weight : Float) (place : Nat)
    (c : String) :
    ((t.insert values weight).hits place c).toList =
      (t.hits place c).toList ++ if values[place]? = some c then [t.rows.size] else [] := by
  -- an index list with the row, where `old` is the list without it
  have listed : ∀ (index : Std.HashMap String (Array Nat)) (v : String),
      ((indexRow t.rows.size v index)[c]?.getD #[]).toList =
        (index[c]?.getD #[]).toList ++ if v = c then [t.rows.size] else [] := by
    intro index v
    unfold indexRow
    rw [Std.HashMap.getElem?_alter]
    by_cases same : v = c
    · subst same
      simp
    · simp [same]
  unfold hits insert
  simp only [Array.getElem?_mapIdx]
  by_cases old : place < t.byArgument.size
  · rw [Array.getElem?_append_left old, Array.getElem?_eq_getElem old, Option.map_some]
    cases value : values[place]? with
    | none => simp
    | some v => simp [listed]
  · rw [Array.getElem?_append_right (by omega), Array.getElem?_replicate,
      Array.getElem?_eq_none (by omega)]
    by_cases new : place < values.length
    · rw [if_pos (by omega), Option.map_some, List.getElem?_eq_getElem new]
      simp [listed]
    · rw [if_neg (by omega), List.getElem?_eq_none (by omega)]
      simp

/-- Adding a row. -/
theorem Stores.insert (stores : t.Stores rows) (values : List String) (weight : Float) :
    (t.insert values weight).Stores (rows ++ [(values, weight)]) where
  content := by rw [IndexedRows.insert, Array.toList_push, stores.content]
  index place c := by
    rw [toList_hits_insert, stores.index, positions_append, ← stores.content, Array.length_toList]

/-- The shortest index list is that of some bound argument. -/
theorem shortestHits_eq (t : IndexedRows) (place : Nat) (best : Option (Array Nat))
    (args : CallArgs) :
    t.shortestHits place best args = best ∨
      ∃ p c, args[p]? = some (some c) ∧
        t.shortestHits place best args = some (t.hits (place + p) c) := by
  induction args generalizing place best with
  | nil => exact .inl rfl
  | cons a rest ih =>
    have later : ∀ {best' : Option (Array Nat)}, (∃ p c, rest[p]? = some (some c) ∧
        t.shortestHits (place + 1) best' rest = some (t.hits (place + 1 + p) c)) →
        ∃ p c, (a :: rest)[p]? = some (some c) ∧
          t.shortestHits (place + 1) best' rest = some (t.hits (place + p) c) := by
      rintro best' ⟨p, c, bound, found⟩
      exact ⟨p + 1, c, bound, by rw [found, Nat.add_right_comm, Nat.add_assoc]⟩
    cases a with
    | none => exact (ih (place + 1) best).imp_right later
    | some c =>
      rw [shortestHits]
      obtain kept | found := ih (place + 1) (shorter best (t.hits place c))
      · rw [kept]
        have first : ∃ p d, (some c :: rest)[p]? = some (some d) ∧
            some (t.hits place c) = some (t.hits (place + p) d) := ⟨0, c, rfl, rfl⟩
        unfold shorter
        cases best with
        | none => exact .inr first
        | some b =>
          simp only
          split
          · exact .inr first
          · exact .inl rfl
      · exact .inr (later found)

/-- A row that agrees with a call has its bound arguments. -/
theorem getElem?_of_agrees {values : List String} {args : CallArgs} (agree : agrees values args)
    {p : Nat} {c : String} (bound : args[p]? = some (some c)) : values[p]? = some c := by
  induction args generalizing values p with
  | nil => cases bound
  | cons a rest ih =>
    cases values with
    | nil => cases agree
    | cons v values =>
      obtain ⟨here, others⟩ := Bool.and_eq_true_iff.1 agree
      cases p with
      | zero =>
        obtain rfl : a = some c := Option.some.inj bound
        have same : c = v := by simpa using here
        exact congrArg some same.symm
      | succ p => exact ih others bound

/-- A look-up gives the rows that agree, in their order. -/
theorem Stores.select_eq (stores : t.Stores rows) (args : CallArgs) :
    t.select args = rows.filter fun row => agrees row.1 args := by
  have looked : t.select args = (t.candidates args).filterMap fun r =>
      rows[r]?.filter fun row : List String × Float => agrees row.1 args := by
    unfold select
    refine List.filterMap_congr fun r _ => ?_
    rw [← stores.content, Array.getElem?_toList]
    cases t.rows[r]? <;> rfl
  have size : t.rows.size = rows.length := by rw [← stores.content, Array.length_toList]
  rw [looked, candidates]
  obtain none | ⟨p, c, bound, found⟩ := t.shortestHits_eq 0 none args
  · rw [none, size]
    have all := filterMap_positions rows (fun row => agrees row.1 args) (fun _ => true)
      fun _ _ _ _ => rfl
    rwa [List.filter_true] at all
  · rw [found, Nat.zero_add]
    change ((t.hits p c).toList).filterMap _ = _
    rw [stores.index, positions]
    refine filterMap_positions rows _ _ fun i row isRow agree => ?_
    rw [isRow, Option.bind_some]
    exact decide_eq_true (getElem?_of_agrees agree bound)

end IndexedRows

namespace FactTable

/-- The rows of a predicate among facts. -/
def rowsOf (facts : List Fact) (label : String) : List (List String × Float) :=
  (facts.filter fun f => f.label = label).map fun f => (f.args, f.weight)

theorem rowsOf_append_singleton (facts : List Fact) (f : Fact) (label : String) :
    rowsOf (facts ++ [f]) label =
      rowsOf facts label ++ if f.label = label then [(f.args, f.weight)] else [] := by
  unfold rowsOf
  rw [List.filter_append, List.map_append]
  by_cases same : f.label = label <;> simp [same]

/-- The facts that a table holds: their rows by predicate, where a predicate without facts is not
claimed. -/
structure Stores (t : FactTable) (facts : List Fact) : Prop where
  rows : ∀ label, ((t.tables[label]?).getD IndexedRows.empty).Stores (rowsOf facts label)
  claimed : ∀ label, t.claims label ↔ ∃ f ∈ facts, f.label = label

variable {t : FactTable} {facts : List Fact}

theorem stores_empty (name : String) : (empty name).Stores [] where
  rows label := by simpa [empty, rowsOf] using IndexedRows.stores_empty
  claimed label := by simp [empty, claims]

/-- Adding a fact. -/
theorem Stores.add (stores : t.Stores facts) (functor : String) (args : List String)
    (weight : Float) : (t.add functor args weight).Stores (facts ++ [⟨functor, args, weight⟩]) := by
  constructor
  case rows =>
    intro label
    rw [FactTable.add, Std.HashMap.getElem?_insert, rowsOf_append_singleton]
    change IndexedRows.Stores
      ((if Fact.label ⟨functor, args, weight⟩ == label then _ else _ : Option _).getD _) _
    by_cases same : Fact.label ⟨functor, args, weight⟩ = label
    · rw [if_pos (beq_iff_eq.2 same), Option.getD_some, if_pos same, ← same]
      exact (stores.rows _).insert args weight
    · rw [if_neg (mt beq_iff_eq.1 same), if_neg same, List.append_nil]
      exact stores.rows label
  case claimed =>
    intro label
    rw [claims, FactTable.add, Std.HashMap.contains_insert, Bool.or_eq_true, beq_iff_eq]
    change _ ∨ t.claims label ↔ _
    rw [stores.claimed label]
    constructor
    · rintro (same | ⟨f, member, same⟩)
      · exact ⟨⟨functor, args, weight⟩, by simp, same⟩
      · exact ⟨f, List.mem_append_left _ member, same⟩
    · rintro ⟨f, member, same⟩
      obtain old | new := List.mem_append.1 member
      · exact .inr ⟨f, old, same⟩
      · obtain rfl := List.mem_singleton.1 new
        exact .inl same

/-- A look-up gives the facts of the predicate that agree with the call, in their order. -/
theorem Stores.lookup_eq (stores : t.Stores facts) (label : String) (args : CallArgs) :
    t.lookup label args =
      (facts.filter fun f => f.label = label ∧ agrees f.args args).map fun f =>
        { values := f.args, features := .single t.feature f.weight } := by
  have rows := stores.rows label
  have found : t.lookup label args = (((t.tables[label]?).getD IndexedRows.empty).select args).map fun row =>
      { values := row.1, features := .single t.feature row.2 } := by
    unfold lookup
    cases t.tables[label]? with
    | none => simp [IndexedRows.stores_empty.select_eq]
    | some _ => rfl
  rw [found, rows.select_eq, rowsOf, List.filter_map, List.map_map, List.filter_filter]
  congr 2
  funext f
  simp [Bool.and_comm]

/-- A line adds at most one fact. -/
theorem Stores.addLine (stores : t.Stores facts) {line : String} {t' : FactTable}
    (added : t.addLine line = .ok t') : ∃ facts', t'.Stores facts' := by
  unfold FactTable.addLine at added
  split at added
  · cases added
    exact ⟨facts, stores⟩
  · split at added
    · split at added
      · cases added
      · split at added <;> cases added
        exact ⟨_, stores.add _ _ _⟩
    · cases added
      exact ⟨_, stores.add _ _ _⟩

theorem Stores.addLines (stores : t.Stores facts) {lines : List (Nat × List Char)} {t' : FactTable}
    (added : t.addLines lines = .ok t') : ∃ facts', t'.Stores facts' := by
  induction lines generalizing t facts with
  | nil =>
    cases added
    exact ⟨facts, stores⟩
  | cons numbered rest ih =>
    rw [FactTable.addLines] at added
    split at added
    · exact ih stores added
    · split at added
      · rename_i t₁ first
        obtain ⟨facts₁, stores₁⟩ := stores.addLine first
        exact ih stores₁ added
      · cases added

/-- A table that is read holds some facts. -/
theorem exists_stores_of_parse? {name text : String} (parsed : parse? name text = .ok t) :
    ∃ facts, t.Stores facts := (stores_empty name).addLines parsed

end FactTable

end ProofWalk
