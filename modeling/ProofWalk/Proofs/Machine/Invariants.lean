import ProofWalk.Machine.Interpreter
import ProofWalk.Proofs.Machine.Execution
import ProofWalk.Proofs.Results

/-!
# What the machine keeps

A property of states that no instruction breaks holds of every state that the machine goes through, also
after a computation that has failed: neither runs nor expansion nor nested searches touch the heap by
themselves. The argument is the same for every such property, so it is made once, for a contract: a property
of states together with properties of the features that are reported or under construction, of the rows that
resolve calls, and of errors. Code suits a contract if each of its instructions keeps it.

## Main definitions

* `Contract` — the properties; `Contract.Holds` — the live part of the machine has them
* `Exec.Keeps` — a computation keeps a contract, and what it gives is good
* `Contract.Suits` — what code has to satisfy

## Main results

* `Contract.Suits.keeps_run`, `Contract.Suits.keeps_runFrom`, `Contract.Suits.keeps_resolveWith` — runs
* `Contract.Suits.keeps_expandWith`, `Contract.Suits.keeps_outlinks` — expansion
* `Contract.Suits.keeps_findall` — nested searches, however deep they lie in each other
-/

namespace ProofWalk

/-- Properties of states, of reported features, of features under construction, of tuples that resolve calls,
and of errors. -/
structure Contract where
  state : State → Prop
  features : FeatureMap → Prop
  draft : FeatureDraft → Prop
  values : List String → Prop
  error : Error → Prop

namespace Contract

/-- The live part of the machine has the properties. -/
structure Holds (k : Contract) (live : Live) : Prop where
  state : k.state live.state
  features : k.features live.features
  drafts : ∀ d ∈ live.drafts, k.draft d

/-- So has a successor of a state. -/
structure HoldsOf (k : Contract) (b : Branch) : Prop where
  child : k.state b.child
  edge : k.features b.edge
  reported : k.features b.reported

end Contract

/-! ### Computations -/

namespace Exec

variable {k : Contract} {α β : Type} {good : α → Prop} {good' : β → Prop} {live : Live}

/-- A computation that begins with a live part leaves the properties behind. What it gives is good, or it
fails with a permitted error. -/
structure KeepsAt (k : Contract) (good : α → Prop) (x : Exec α) (live : Live) : Prop where
  holds : k.Holds (x live).2
  good : ∀ a, (x live).1 = .ok a → good a
  error : ∀ e, (x live).1 = .error e → k.error e

/-- It does so wherever it begins with the properties. -/
def Keeps (k : Contract) (good : α → Prop) (x : Exec α) : Prop := ∀ live, k.Holds live → KeepsAt k good x live

/-- A computation keeps the properties, whatever it gives. -/
abbrev Neutral (k : Contract) (x : Exec α) : Prop := Keeps k (fun _ => True) x

namespace KeepsAt

theorem of_ok {x : Exec α} {a : α} {live' : Live} (done : x live = (.ok a, live')) (holds : k.Holds live')
    (isGood : good a) : KeepsAt k good x live := by
  refine ⟨by rwa [done], fun a' same => ?_, fun e failed => ?_⟩
  · rw [done] at same
    cases same
    exact isGood
  · rw [done] at failed
    cases failed

theorem of_error {x : Exec α} {e : Error} {live' : Live} (fails : x live = (.error e, live'))
    (holds : k.Holds live') (permitted : k.error e) : KeepsAt k good x live := by
  refine ⟨by rwa [fails], fun a same => ?_, fun e' failed => ?_⟩
  · rw [fails] at same
    cases same
  · rw [fails] at failed
    cases failed
    exact permitted

theorem of_eq {x y : Exec α} {live' : Live} (same : x live = y live') (keeps : KeepsAt k good y live') :
    KeepsAt k good x live :=
  ⟨by rw [same]; exact keeps.holds, by rw [same]; exact keeps.good, by rw [same]; exact keeps.error⟩

theorem pure {a : α} (holds : k.Holds live) (isGood : good a) : KeepsAt k good (Pure.pure a : Exec α) live :=
  of_ok rfl holds isGood

theorem throw {e : Error} (holds : k.Holds live) (permitted : k.error e) :
    KeepsAt k good (throwThe Error e : Exec α) live :=
  of_error rfl holds permitted

theorem bind {x : Exec α} {f : α → Exec β} (first : KeepsAt k good x live)
    (next : ∀ a live', x live = (.ok a, live') → k.Holds live' → good a → KeepsAt k good' (f a) live') :
    KeepsAt k good' (x >>= f) live := by
  obtain ⟨holds, isGood, permitted⟩ := first
  match ran : x live with
  | (.ok a, live') =>
    rw [ran] at holds isGood
    exact .of_eq (bind_ok ran) (next a live' ran holds (isGood a rfl))
  | (.error e, live') =>
    rw [ran] at holds permitted
    exact of_error (by rw [bind_apply, ran]) holds (permitted e rfl)

/-- What comes behind reading the state. -/
theorem lift_bind {f : State → Except Error α} {g : α → Exec β} (holds : k.Holds live)
    (rejects : ∀ e, f live.state = .error e → k.error e)
    (next : ∀ a, f live.state = .ok a → KeepsAt k good' (g a) live) :
    KeepsAt k good' (lift f >>= g) live := by
  cases read : f live.state with
  | ok a =>
    have done : lift f live = (.ok a, live) := by rw [lift, read]
    exact .of_eq (bind_ok done) (next a read)
  | error e =>
    have fails : lift f live = (.error e, live) := by rw [lift, read]
    exact .of_error (bind_error fails) holds (rejects e read)

end KeepsAt

namespace Keeps

theorem pure {a : α} (isGood : good a) : Keeps k good (Pure.pure a : Exec α) := fun _ holds =>
  .pure holds isGood

theorem throw {e : Error} (permitted : k.error e) : Keeps k good (throwThe Error e : Exec α) :=
  fun _ holds => .throw holds permitted

theorem bind {x : Exec α} {f : α → Exec β} (first : Keeps k good x)
    (next : ∀ a, good a → Keeps k good' (f a)) : Keeps k good' (x >>= f) := fun live holds =>
  (first live holds).bind fun a live' _ holds' isGood => next a isGood live' holds'

/-- Nothing comes after a failure. -/
theorem throw_bind {e : Error} (permitted : k.error e) (f : α → Exec β) :
    Keeps k good' (throwThe Error e >>= f) := fun _ holds => .of_error rfl holds permitted

theorem andThen {x : Exec α} {f : α → Exec β} (first : Neutral k x) (next : ∀ a, Keeps k good' (f a)) :
    Keeps k good' (x >>= f) := first.bind fun a _ => next a

theorem foldlM {f : α → β → Exec α} {bs : List β} (step : ∀ a, ∀ b ∈ bs, good a → Keeps k good (f a b))
    {a : α} (start : good a) : Keeps k good (bs.foldlM f a) := by
  induction bs generalizing a with
  | nil => exact pure start
  | cons b rest ih =>
    rw [List.foldlM_cons]
    refine (step a b (by simp) start).bind fun a' isGood => ?_
    exact ih (fun a b member => step a b (by simp [member])) isGood

end Keeps

theorem keeps_state : Keeps k k.state state := fun _ holds => .of_ok rfl holds holds.state

theorem keeps_reported : Keeps k k.features reported := fun _ holds => .of_ok rfl holds holds.features

theorem neutral_update {f : State → State} (keeps : ∀ s, k.state s → k.state (f s)) :
    Neutral k (update f) :=
  fun _ holds => .of_ok rfl ⟨keeps _ holds.state, holds.features, holds.drafts⟩ trivial

end Exec

/-! ### Code -/

namespace Contract

open Exec

/-- What keeps a contract: every instruction of the code, every move that leaves the heap as it is and sets no
register, and every answer of a relation. Errors of the run itself are permitted. -/
structure Suits (k : Contract) (code : Code) : Prop where
  step : ∀ findall, (∀ address, Neutral k (findall address)) → ∀ pc i, code.fetch? pc = some i →
    Neutral k (Exec.step findall i)
  move : ∀ {s s' : State}, k.state s → s'.heap = s.heap →
    (∀ (r cell : Nat), s'.registers[r]? = some (some cell) → s.registers[r]? = some (some cell)) → k.state s'
  nothing : k.features []
  merge : ∀ {m added}, k.features m → k.features added → k.features (FeatureMap.merge m added)
  rows : ∀ r ∈ code.relations, ∀ label (s : State) rows, k.state s → r.lookup label s.callArgs = .ok rows →
    ∀ row ∈ rows, k.values row.values ∧ k.features row.features
  lookup : ∀ r ∈ code.relations, ∀ label (s : State) e, r.lookup label s.callArgs = .error e → k.error e
  unify : ∀ {values}, k.values values → ∀ {live}, k.Holds live → values.length ≤ live.state.heap.size →
    KeepsAt k (fun _ => True) (Code.unifyFrom (live.state.heap.size - values.length) values) live
  badAddress : ∀ pc size, k.error (.badAddress pc size)
  badHeap : ∀ i size, k.error (.badHeapReference i size)
  nesting : ∀ limit, k.error (.nestingTooDeep limit)

namespace Suits

variable {k : Contract} {code : Code} {findall : Nat → Exec Unit} {s : State}
  (suits : k.Suits code)

include suits

/-- Moves that leave heap and registers as they are. -/
theorem neutral_control {f : State → State} (heap : ∀ s, (f s).heap = s.heap)
    (registers : ∀ s, (f s).registers = s.registers) : Neutral k (update f) :=
  neutral_update fun s holds => suits.move holds (heap s) fun r cell found => by rwa [registers s] at found

theorem neutral_return? : Neutral k return? := by
  intro live holds
  match callers : live.state.calls with
  | [] =>
    refine .of_ok (by simp only [return?, callers]; rfl) ?_ trivial
    exact ⟨suits.move holds.state rfl fun _ _ found => found, holds.features, holds.drafts⟩
  | f :: rest =>
    refine .of_ok (by simp only [return?, callers]; rfl) ?_ trivial
    refine ⟨suits.move holds.state rfl fun r cell found => ?_, holds.features, holds.drafts⟩
    simp only [Array.take_eq_extract, Array.getElem?_extract, Nat.zero_add] at found
    split at found
    · exact found
    · cases found

theorem holds_state (isKept : k.state s) : k.Holds { state := s, features := [], drafts := [] } :=
  ⟨isKept, suits.nothing, fun _ member => absurd member List.not_mem_nil⟩

theorem neutral_restore (isKept : k.state s) : Neutral k (restore s) := fun _ _ =>
  .of_ok rfl (suits.holds_state isKept) trivial

theorem neutral_startAt (address : Nat) : Neutral k (startAt address) := fun _ holds =>
  .of_ok rfl (suits.holds_state (suits.move holds.state rfl fun _ _ found => found)) trivial

section
variable (nested : ∀ address, Neutral k (findall address))

include nested

theorem neutral_runSegment (pc : Nat) : Neutral k (code.runSegment findall pc) := by
  -- the code that is left gets shorter with every instruction
  induction left : code.size - pc using Nat.strongRecOn generalizing pc with
  | _ left ih =>
  rw [Code.runSegment]
  split
  · exact .throw (suits.badAddress _ _)
  next label _ =>
    have parks : Neutral k (park label) := suits.neutral_control (fun _ => rfl) fun _ => rfl
    exact parks.andThen fun _ => .pure trivial
  · exact suits.neutral_return?
  next i _ _ found =>
    have inside := Code.lt_size_of_fetch? found
    refine (suits.step findall nested pc i found).andThen fun goesOn => ?_
    split
    · have next : Neutral k (update fun s => { s with pc := pc + 1 }) :=
        suits.neutral_control (fun _ => rfl) fun _ => rfl
      exact next.andThen fun _ => ih _ (by omega) (pc + 1) rfl
    · have clash : Neutral k (update fun s => { s with failed := true }) :=
        suits.neutral_control (fun _ => rfl) fun _ => rfl
      exact clash.andThen fun _ => .pure trivial

theorem neutral_runThrough (callers : Nat) : Neutral k (code.runThrough findall callers) := by
  induction callers with
  | zero =>
    unfold Code.runThrough
    refine keeps_state.bind fun s _ => ?_
    split
    · exact (suits.neutral_runSegment nested s.pc).andThen fun _ => .pure trivial
    · exact .pure trivial
  | succ callers ih =>
    unfold Code.runThrough
    refine keeps_state.bind fun s _ => ?_
    split
    · refine (suits.neutral_runSegment nested s.pc).andThen fun returned => ?_
      split
      · exact ih
      · exact .pure trivial
    · exact .pure trivial

/-- Running on keeps the contract. -/
theorem neutral_run : Neutral k (code.run findall) :=
  keeps_state.bind fun _ _ => suits.neutral_runThrough nested _

/-- So does a run from an address, whose features have the property as well. -/
theorem keeps_runFrom (address : Nat) : Keeps k k.features (code.runFrom findall address) :=
  (suits.neutral_startAt address).andThen fun _ =>
    (suits.neutral_run nested).andThen fun _ => keeps_reported

/-- So does resolving a call by a tuple. -/
theorem neutral_resolveWith {values : List String} (areValues : k.values values) :
    Neutral k (code.resolveWith findall values) := by
  intro live holds
  unfold Code.resolveWith
  refine .of_eq (state_bind _) ?_
  by_cases low : live.state.heap.size < values.length
  · simp only [if_pos low]
    exact Keeps.throw_bind (suits.badHeap _ _) _ live holds
  simp only [if_neg low]
  refine (suits.unify areValues holds (Nat.not_lt.1 low)).bind fun agrees live' _ holds' _ => ?_
  split
  · have resumes : Neutral k (update fun s => { s with pending := none }) :=
      suits.neutral_control (fun _ => rfl) fun _ => rfl
    refine (resumes.andThen fun _ => suits.neutral_return?.andThen fun _ =>
      (suits.neutral_run nested).andThen fun _ => ?_) live' holds'
    exact keeps_state.bind fun _ _ => .pure trivial
  · have clash : Neutral k (update fun s => { s with failed := true }) :=
      suits.neutral_control (fun _ => rfl) fun _ => rfl
    exact (clash.andThen fun _ => .pure trivial) live' holds'

/-! ### Expansion -/

theorem keeps_expandClauses (isKept : k.state s) (addresses : List Nat) :
    Keeps k (fun branches : List Branch => ∀ b ∈ branches, k.HoldsOf b)
      (code.expandClauses findall s addresses) := by
  induction addresses with
  | nil => exact .pure fun b member => absurd member List.not_mem_nil
  | cons address rest ih =>
    unfold Code.expandClauses
    refine (suits.neutral_restore isKept).andThen fun _ => ?_
    refine (suits.keeps_runFrom nested address).bind fun features areFeatures => ?_
    refine keeps_state.bind fun child isChild => ?_
    refine ih.bind fun others areKept => ?_
    split
    · exact .pure areKept
    · exact .pure (List.forall_mem_cons.2 ⟨⟨isChild, areFeatures, areFeatures⟩, areKept⟩)

theorem keeps_expandRows (isKept : k.state s) {rows : List Row}
    (areRows : ∀ row ∈ rows, k.values row.values ∧ k.features row.features) :
    Keeps k (fun branches : List Branch => ∀ b ∈ branches, k.HoldsOf b)
      (code.expandRows findall s rows) := by
  induction rows with
  | nil => exact .pure fun b member => absurd member List.not_mem_nil
  | cons row rest ih =>
    obtain ⟨⟨areValues, areFeatures⟩, others⟩ := List.forall_mem_cons.1 areRows
    unfold Code.expandRows
    refine (suits.neutral_restore isKept).andThen fun _ => ?_
    refine (suits.neutral_resolveWith nested areValues).andThen fun alive => ?_
    refine keeps_state.bind fun child isChild => ?_
    refine keeps_reported.bind fun reported areReported => ?_
    refine (ih others).bind fun branches areKept => .pure ?_
    split
    · exact List.forall_mem_cons.2 ⟨⟨isChild, areFeatures, areReported⟩, areKept⟩
    · exact areKept

theorem keeps_expandRelations (isKept : k.state s) (label : String) {relations : List Relation}
    (among : ∀ r ∈ relations, r ∈ code.relations) :
    Keeps k (fun branches : List Branch => ∀ b ∈ branches, k.HoldsOf b)
      (code.expandRelations findall s label relations) := by
  induction relations with
  | nil => exact .pure fun b member => absurd member List.not_mem_nil
  | cons r rest ih =>
    obtain ⟨here, others⟩ := List.forall_mem_cons.1 among
    unfold Code.expandRelations
    split
    · refine (suits.neutral_restore isKept).andThen fun _ => ?_
      have answers : Keeps k
          (fun rows : List Row => ∀ row ∈ rows, k.values row.values ∧ k.features row.features)
          (lift fun _ => r.lookup label s.callArgs) := fun live holds =>
        ⟨holds, fun rows found => suits.rows r here label s rows isKept found,
          fun e failed => suits.lookup r here label s e failed⟩
      refine answers.bind fun rows areRows => ?_
      refine (suits.keeps_expandRows nested isKept areRows).bind fun branches first => ?_
      exact (ih others).bind fun behind areKept => .pure (List.forall_mem_append.2 ⟨first, areKept⟩)
    · exact ih others

/-- The successors of a state that has the properties have them as well. -/
theorem keeps_expandWith (isKept : k.state s) :
    Keeps k (fun branches : List Branch => ∀ b ∈ branches, k.HoldsOf b) (code.expandWith findall s) := by
  have none : Keeps k (fun branches : List Branch => ∀ b ∈ branches, k.HoldsOf b) (pure []) :=
    .pure fun b member => absurd member List.not_mem_nil
  unfold Code.expandWith
  split
  · exact none
  · split
    · exact none
    · refine (suits.keeps_expandClauses nested isKept _).bind fun byClauses first => ?_
      refine (suits.keeps_expandRelations nested isKept _ fun _ member => member).bind fun byRelations more => ?_
      exact .pure (List.forall_mem_append.2 ⟨first, more⟩)

/-! ### Nested searches -/

theorem keeps_search (depth : Nat) {found : FeatureMap} (areFound : k.features found) (isKept : k.state s) :
    Keeps k k.features (code.search findall depth found s) := by
  induction depth generalizing found s with
  | zero => exact .pure areFound
  | succ depth ih =>
    unfold Code.search
    refine (suits.keeps_expandWith nested isKept).bind fun branches areKept => ?_
    refine .foldlM (fun found b member isFound => ?_) areFound
    split
    · exact .pure (suits.merge isFound (areKept b member).reported)
    · exact ih isFound (areKept b member).child

theorem keeps_collect (address : Nat) : Keeps k k.features (code.collect findall address) := by
  have alone : Neutral k (update fun s => { s with calls := [] }) :=
    suits.neutral_control (fun _ => rfl) fun _ => rfl
  unfold Code.collect
  refine alone.andThen fun _ => ?_
  refine (suits.keeps_runFrom nested address).bind fun reported areReported => ?_
  refine keeps_state.bind fun s isKept => ?_
  split
  · exact .pure (suits.merge suits.nothing areReported)
  · split
    · exact .pure suits.nothing
    · exact suits.keeps_search nested _ suits.nothing isKept

end

/-- Nested searches keep the contract, however deep they lie in each other. -/
theorem neutral_findall (nesting address : Nat) : Neutral k (code.findall nesting address) := by
  induction nesting generalizing address with
  | zero => exact fun live holds => .of_error (by rw [Code.findall]) holds (suits.nesting _)
  | succ nesting ih =>
    intro live holds
    have collected := suits.keeps_collect ih address { live with features := [], drafts := [] }
      (suits.holds_state holds.state)
    match done : code.collect (code.findall nesting) address { live with features := [], drafts := [] } with
    | (.ok found, live') =>
      refine .of_ok (by rw [Code.findall, done]) ?_ trivial
      have areFound := collected.good found (by rw [done])
      exact ⟨holds.state, suits.merge holds.features areFound, holds.drafts⟩
    | (.error e, live') =>
      exact .of_error (by rw [Code.findall, done]) holds (collected.error e (by rw [done]))

/-- The steps from a state that has the properties lead to states that have them. -/
theorem keeps_outlinks (isKept : k.state s) :
    Keeps k (fun links : List Outlink => ∀ o ∈ links, k.state o.child ∧ k.features o.features)
      (code.outlinks s) := by
  refine (suits.keeps_expandWith (suits.neutral_findall _) isKept).bind fun branches areKept => ?_
  refine .pure fun o member => ?_
  obtain ⟨b, isBranch, rfl⟩ := List.mem_map.1 member
  exact ⟨(areKept b isBranch).child, (areKept b isBranch).edge⟩

end Suits

end Contract

end ProofWalk
