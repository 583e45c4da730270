import Mathlib.Data.List.Nodup
import Mathlib.Data.List.Range
import ProofWalk.Proofs.Features
import ProofWalk.Proofs.Results
import ProofWalk.Proofs.Text.Legible

/-!
# The written table of features

The table of a run is written with one name on each line and is read line by line, where blanks around a
name are dropped and empty lines are skipped. It reads back as it was written if its names are legible:
they fill a line and neither begin nor end with a blank.

As long as there are numbers, a table lists its names without gaps, and names that are taken up come
behind those it has.

## Main definitions

* `FeatureTable.Lists` — the names of a table in the order of their numbers
* `FeatureTable.Takes` — a computation that takes up good names

## Main results

* `FeatureTable.Lists.intern` — what taking up a name does to the list
* `FeatureTable.Lists.parse?_text` — a table with legible names reads back
* `FeatureTable.load_of_save` — also by way of a file
-/

namespace ProofWalk

/-! ### Listed tables -/

namespace FeatureTable

/-- The names of a table in the order of their numbers, which begin at one and leave no gap. -/
structure Lists (t : FeatureTable) (names : List String) : Prop where
  lawful : t.Lawful
  name : ∀ i, t.name? (i + 1) = names[i]?
  next : t.free.next = names.length + 1
  size : t.size = names.length

variable {t t' : FeatureTable} {names more : List String}

theorem lists_empty : empty.Lists [] where
  lawful := lawful_empty
  name i := by
    change (∅ : Std.HashMap Nat String)[i + 1]? = none
    exact Std.HashMap.getElem?_empty
  next := rfl
  size := Std.HashMap.size_empty

namespace Lists

/-- A name has a number if it is listed. -/
theorem number?_eq_none (lists : t.Lists names) {name : String} :
    t.number? name = none ↔ name ∉ names := by
  constructor
  · intro unknown member
    obtain ⟨i, isName⟩ := List.getElem?_of_mem member
    rw [← lists.name, ← lists.lawful.inverse, unknown] at isName
    cases isName
  · intro unlisted
    cases number : t.number? name with
    | none => rfl
    | some n =>
      have named := (lists.lawful.inverse _ _).1 number
      obtain ⟨positive, -⟩ := lists.lawful.positive _ _ named
      obtain ⟨i, rfl⟩ := Nat.exists_eq_add_of_le' positive
      rw [lists.name] at named
      exact absurd (List.mem_of_getElem? named) unlisted

/-- No name is listed twice. -/
theorem nodup (lists : t.Lists names) : names.Nodup := by
  rw [List.nodup_iff_getElem?_ne_getElem?]
  intro i j before inside same
  have isName := List.getElem?_eq_getElem inside
  have first := (lists.lawful.inverse _ _).2 ((lists.name i).trans (same.trans isName))
  have second := (lists.lawful.inverse _ _).2 ((lists.name j).trans isName)
  rw [second] at first
  have equal : j + 1 = i + 1 := Option.some.inj first
  omega

/-- A table whose names go on gives the first ones the same numbers. -/
theorem extends_append (lists : t.Lists names) (lists' : t'.Lists (names ++ more)) : t.Extends t' := by
  intro name n number
  have named := (lists.lawful.inverse _ _).1 number
  obtain ⟨positive, -⟩ := lists.lawful.positive _ _ named
  obtain ⟨i, rfl⟩ := Nat.exists_eq_add_of_le' positive
  rw [lists.name] at named
  have inside := (List.getElem?_eq_some_iff.1 named).1
  rw [lists'.lawful.inverse, lists'.name, List.getElem?_append_left inside, named]

/-- A name that is taken up comes behind the others, unless it is among them. -/
theorem intern (lists : t.Lists names) (name : String)
    (room : name ∈ names ∨ names.length + 2 < Numbers.limit) :
    ∃ n t', t.intern name = (.ok n, t') ∧ t'.Lists (names ++ if name ∈ names then [] else [name]) := by
  cases given : t.number? name with
  | some n =>
    have listed : name ∈ names := by
      by_contra unlisted
      rw [lists.number?_eq_none.2 unlisted] at given
      cases given
    refine ⟨n, t, ?_, ?_⟩
    · unfold FeatureTable.intern
      rw [given]
    · rw [if_pos listed, List.append_nil]
      exact lists
  | none =>
    have unlisted := lists.number?_eq_none.1 given
    have left : t.free.next ≠ 0 := by
      rw [lists.next]
      exact Nat.succ_ne_zero _
    have below : t.free.next + 1 < Numbers.limit := by
      rw [lists.next]
      exact room.resolve_left unlisted
    -- the name gets the next number, and numbers do not run out
    let t' : FeatureTable :=
      { numbers := t.numbers.insert name t.free.next
        namesByNumber := t.namesByNumber.insertIfNew t.free.next name
        free := { next := (t.free.next + 1) % Numbers.limit } }
    have interned : t.intern name = (.ok t.free.next, t') := by
      unfold FeatureTable.intern
      simp only [given, Numbers.take, if_neg left]
      rfl
    refine ⟨t.free.next, t', interned, ?_⟩
    obtain ⟨lawful, extends_, number⟩ := intern_spec lists.lawful interned
    have next : t'.free.next = names.length + 2 := by
      change (t.free.next + 1) % Numbers.limit = _
      rw [Nat.mod_eq_of_lt below, lists.next]
    have size : t'.size = names.length + 1 := by
      change (t.numbers.insert name t.free.next).size = _
      have isNew : name ∉ t.numbers := by
        rw [Std.HashMap.mem_iff_isSome_getElem?]
        change ¬(t.number? name).isSome = true
        rw [given]
        exact Bool.false_ne_true
      rw [Std.HashMap.size_insert, if_neg isNew]
      exact congrArg (· + 1) lists.size
    rw [if_neg unlisted]
    refine ⟨lawful, fun i => ?_, ?_, ?_⟩
    · -- the names in front, the new one, and nothing behind it
      rcases Nat.lt_trichotomy i names.length with front | rfl | behind
      · have isName := List.getElem?_eq_getElem front
        rw [List.getElem?_append_left front, isName, ← lawful.inverse]
        refine extends_ _ _ ?_
        rw [lists.lawful.inverse, lists.name, isName]
      · rw [List.getElem?_concat_length, ← lawful.inverse, number, lists.next]
      · rw [List.getElem?_eq_none (by simp; omega)]
        cases named : t'.name? (i + 1) with
        | none => rfl
        | some other =>
          have bound := lawful.fresh (by rw [next]; omega) _ _ named
          omega
    · rw [next, List.length_append, List.length_singleton]
    · rw [size, List.length_append, List.length_singleton]

/-- Names that are all new come behind the others in their order. -/
theorem internAll {new : List String} (lists : t.Lists names) (distinct : (names ++ new).Nodup)
    (room : (names ++ new).length + 1 < Numbers.limit) :
    ∃ numbers t', t.internAll new = (.ok numbers, t') ∧ t'.Lists (names ++ new) := by
  induction new generalizing t names with
  | nil =>
    refine ⟨[], t, rfl, ?_⟩
    rw [List.append_nil]
    exact lists
  | cons name rest ih =>
    have unlisted : name ∉ names := fun member =>
      (List.nodup_append.1 distinct).2.2 name member name (List.mem_cons_self ..) rfl
    rw [List.length_append, List.length_cons] at room
    obtain ⟨n, t₁, first, lists₁⟩ := lists.intern name (.inr (by omega))
    rw [if_neg unlisted] at lists₁
    have regrouped : names ++ name :: rest = names ++ [name] ++ rest := by simp
    rw [regrouped] at distinct ⊢
    obtain ⟨ns, t', others, lists'⟩ := ih lists₁ distinct (by simp; omega)
    refine ⟨n :: ns, t', ?_, lists'⟩
    rw [FeatureTable.internAll, first]
    simp only [others]

theorem names_eq (lists : t.Lists names) : t.names = names := by
  have all : (List.range names.length).map (fun i => names[i]?) = names.map some := by
    refine List.ext_getElem? fun i => ?_
    rw [List.getElem?_map, List.getElem?_map]
    by_cases inside : i < names.length
    · rw [List.getElem?_range inside, List.getElem?_eq_getElem inside]
      simp [inside]
    · simp [inside]
  rw [FeatureTable.names, lists.next, Nat.add_sub_cancel]
  calc (List.range names.length).filterMap (fun i => t.name? (i + 1))
      = ((List.range names.length).map fun i => names[i]?).filterMap id := by
        rw [List.filterMap_map]
        exact List.filterMap_congr fun i _ => lists.name i
    _ = names := by rw [all, List.filterMap_map]; exact List.filterMap_some

/-- A table with legible names reads back. -/
theorem parse?_text (lists : t.Lists names) (legible : ∀ n ∈ names, Legible n) :
    ∃ index, parse? t.text = .ok index ∧ index.Lists names := by
  have room : names.length + 1 < Numbers.limit := by
    rw [← lists.next]
    exact lists.lawful.next
  obtain ⟨numbers, index, taken, lists'⟩ := lists_empty.internAll lists.nodup room
  refine ⟨index, ?_, lists'⟩
  rw [FeatureTable.parse?, text, lists.names_eq, Legible.linesOf_join legible,
    Legible.filter_map_trimmed legible, taken]

end Lists

/-! ### Computations on tables -/

/-- A computation on a table that takes up good names, at most a given number of them. It fails only where
numbers run out, and then as many names are known as there are numbers. -/
structure Takes {α : Type} (good : String → Prop) (count : Nat)
    (x : FeatureTable → Except Error α × FeatureTable) : Prop where
  grows : ∀ t, t.size ≤ (x t).2.size
  most : ∀ t, (x t).2.size ≤ t.size + count
  lists : ∀ t names, t.Lists names → (x t).2.size + 1 < Numbers.limit →
    ∃ a more, (x t).1 = .ok a ∧ (x t).2.Lists (names ++ more) ∧ ∀ n ∈ more, good n

/-- A table gets at most one name more. -/
theorem size_intern (t : FeatureTable) (name : String) :
    t.size ≤ (t.intern name).2.size ∧ (t.intern name).2.size ≤ t.size + 1 := by
  unfold intern
  split
  · exact ⟨le_rfl, Nat.le_succ _⟩
  · simp only
    split
    · exact ⟨Std.HashMap.size_le_size_insert, Std.HashMap.size_insert_le⟩
    · exact ⟨le_rfl, Nat.le_succ _⟩

/-- A new name that gets the last number leaves no room for another. -/
theorem Lists.room_of_size (lists : t.Lists names) {name : String}
    (few : (t.intern name).2.size + 1 < Numbers.limit) :
    name ∈ names ∨ names.length + 2 < Numbers.limit := by
  by_contra full
  rw [not_or, Nat.not_lt] at full
  obtain ⟨unlisted, full⟩ := full
  have unknown := lists.number?_eq_none.2 unlisted
  have left : t.free.next ≠ 0 := by
    rw [lists.next]
    exact Nat.succ_ne_zero _
  have isNew : name ∉ t.numbers := by
    rw [Std.HashMap.mem_iff_isSome_getElem?]
    change ¬(t.number? name).isSome = true
    rw [unknown]
    exact Bool.false_ne_true
  have size : (t.intern name).2.size = names.length + 1 := by
    unfold FeatureTable.intern
    simp only [unknown, Numbers.take, if_neg left]
    change (t.numbers.insert name t.free.next).size = _
    rw [Std.HashMap.size_insert, if_neg isNew]
    exact congrArg (· + 1) lists.size
  omega

namespace Takes

variable {α β : Type} {good : String → Prop} {count count' : Nat}

theorem intern {name : String} (isGood : good name) : Takes good 1 fun t => t.intern name where
  grows t := (t.size_intern name).1
  most t := (t.size_intern name).2
  lists t names lists few := by
    obtain ⟨n, t', interned, lists'⟩ := lists.intern name (lists.room_of_size few)
    rw [interned]
    refine ⟨n, _, rfl, lists', fun other member => ?_⟩
    split at member
    · cases member
    · rw [List.mem_singleton.1 member]
      exact isGood

theorem pure (a : α) : Takes good 0 fun t => (.ok a, t) where
  grows _ := le_rfl
  most _ := le_rfl
  lists _ names lists _ := ⟨a, [], rfl, by rwa [List.append_nil], fun _ member => by cases member⟩

theorem map {x : FeatureTable → Except Error α × FeatureTable} (takes : Takes good count x) (f : α → β) :
    Takes good count fun t => ((x t).1.map f, (x t).2) where
  grows := takes.grows
  most := takes.most
  lists t names lists few := by
    obtain ⟨a, more, done, lists', areGood⟩ := takes.lists t names lists few
    exact ⟨f a, more, by rw [done]; rfl, lists', areGood⟩

/-- One computation after another, which does not begin if the first one fails. -/
theorem bind {x : FeatureTable → Except Error α × FeatureTable}
    {f : α → FeatureTable → Except Error β × FeatureTable} {y : FeatureTable → Except Error β × FeatureTable}
    (first : Takes good count x) (next : ∀ a, Takes good count' (f a))
    (goesOn : ∀ t a t₁, x t = (.ok a, t₁) → y t = f a t₁)
    (fails : ∀ t e t₁, x t = (.error e, t₁) → y t = (.error e, t₁)) : Takes good (count + count') y where
  grows t := by
    have before := first.grows t
    rcases ran : x t with ⟨e | a, t₁⟩
    · rw [ran] at before
      rw [fails t e t₁ ran]
      exact before
    · rw [ran] at before
      rw [goesOn t a t₁ ran]
      exact before.trans ((next a).grows t₁)
  most t := by
    have before := first.most t
    rcases ran : x t with ⟨e | a, t₁⟩
    · rw [ran] at before
      rw [fails t e t₁ ran]
      exact before.trans (Nat.add_le_add_left (Nat.le_add_right _ _) _)
    · rw [ran] at before
      rw [goesOn t a t₁ ran, ← Nat.add_assoc]
      exact ((next a).most t₁).trans (Nat.add_le_add_right before _)
  lists t names lists few := by
    have before := first.lists t names lists
    rcases ran : x t with ⟨e | a, t₁⟩
    · rw [ran] at before
      rw [fails t e t₁ ran] at few
      obtain ⟨a, more, failed, -⟩ := before few
      cases failed
    · rw [ran] at before
      rw [goesOn t a t₁ ran] at few ⊢
      -- the table has only grown since
      have grows := (next a).grows t₁
      obtain ⟨a', more, same, lists₁, areGood⟩ :=
        before (Nat.lt_of_le_of_lt (Nat.add_le_add_right grows 1) few)
      obtain ⟨b, more', done, lists', areGood'⟩ := (next a).lists t₁ _ lists₁ few
      refine ⟨b, more ++ more', done, ?_, fun n member => ?_⟩
      · rw [← List.append_assoc]
        exact lists'
      · exact (List.mem_append.1 member).elim (areGood n) (areGood' n)

end Takes

end FeatureTable

/-! ### Files -/

theorem lift_apply {ε σ α : Type} (x : StateM σ α) (s : σ) :
    (liftM x : ExceptT ε (StateM σ) α) s = (.ok (x s).1, (x s).2) := rfl

namespace Store

/-- A file is put into a directory if the path leads there. -/
theorem write_apply (s : Store) (path content : String) :
    (Files.write path content : StateM Store Bool) s =
      ((fileOf? path).isSome, (fileOf? path).elim s fun name => s.put name content) := by
  simp only [Files.write]
  cases fileOf? path <;> rfl

theorem read_apply (s : Store) (path : String) :
    (Files.read? path : StateM Store (Option String)) s = (s.get? path, s) := rfl

theorem get?_put (s : Store) {path name : String} (place : fileOf? path = some name) (content : String) :
    (s.put name content).get? path = some content := by
  rw [get?, place]
  exact List.lookup_cons_self

end Store

/-- A table can be saved under a path that leads to a file, and is then loaded as it reads. -/
theorem FeatureTable.load_of_save {t index : FeatureTable} {path name : String}
    (place : Store.fileOf? path = some name) (read : parse? t.text = .ok index) (s : Store) :
    ∃ s', t.save (m := StateM Store) path s = (.ok (), s') ∧
      load (m := StateM Store) path s' = (.ok index, s') := by
  refine ⟨s.put name t.text, ?_, ?_⟩
  · unfold save
    rw [bind_apply, lift_apply, Store.write_apply, place]
    rfl
  · unfold load
    rw [bind_apply, lift_apply, Store.read_apply, s.get?_put place]
    simp only [read]
    rfl

end ProofWalk
