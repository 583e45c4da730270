import ProofWalk.Machine.Basic
import ProofWalk.Proofs.Resolution.Unification
import Mathlib.Logic.Function.Basic

/-!
# Reading a heap

Every cell of a heap stands for a term: a bound cell for its constant, an unbound cell for a variable
of its own, and a reference for what the cell below it stands for. The conditions are local, so they
are checked cell by cell when the heap changes; that a chain of references ends at the right cell
follows from them.

Unifying cells turns the reading into the reading under the most general unifier, and fails where
there is none.

## Main definitions

* `Reads` — a heap with the terms that its cells stand for

## Main results

* `Reads.constantAt_eq` — the machine finds the constant that a cell stands for
* `Reads.unifyConstant`, `Reads.unifyCells` — unification of cells is unification of terms
-/

namespace ProofWalk

open Substitution

/-- The cells of a heap stand for terms, different unbound cells for different variables. -/
structure Reads (heap : Array Cell) (read : Nat → Term) : Prop where
  constant : ∀ {i c}, heap[i]? = some (.constant c) → read i = .constant c
  ref : ∀ {i t}, heap[i]? = some (.ref t) → t ≤ i ∧ read t = read i
  unbound : ∀ {i}, heap[i]? = some (.ref i) → ∃ v, read i = .var v
  distinct : ∀ {i j}, heap[i]? = some (.ref i) → heap[j]? = some (.ref j) →
    read i = read j → i = j

namespace Reads

variable {heap : Array Cell} {read : Nat → Term}

theorem empty (read : Nat → Term) : Reads #[] read where
  constant := by simp
  ref := by simp
  unbound := by simp
  distinct := by simp

/-- Only the terms of the heap's own cells matter. -/
theorem congr (reads : Reads heap read) {read' : Nat → Term}
    (same : ∀ i < heap.size, read' i = read i) : Reads heap read' := by
  have bound : ∀ {i c}, heap[i]? = some c → i < heap.size :=
    fun cell => (Array.getElem?_eq_some_iff.1 cell).1
  constructor
  case constant => exact fun cell => (same _ (bound cell)).trans (reads.constant cell)
  case ref =>
    intro i t cell
    obtain ⟨below, equal⟩ := reads.ref cell
    exact ⟨below, by rw [same t (by have := bound cell; omega), same i (bound cell), equal]⟩
  case unbound => exact fun cell => same _ (bound cell) ▸ reads.unbound cell
  case distinct =>
    intro i j left right equal
    rw [same i (bound left), same j (bound right)] at equal
    exact reads.distinct left right equal

/-! ### Chains of references -/

/-- A chain with steps to spare ends at a bound or unbound cell that stands for the same term. -/
theorem follow (reads : Reads heap read) {steps i : Nat} (inside : i < heap.size)
    (enough : i < steps) :
    ∃ d ≤ i, State.follow heap steps i = d ∧ read d = read i ∧
      ((∃ c, heap[d]? = some (.constant c)) ∨ heap[d]? = some (.ref d)) := by
  induction steps generalizing i with
  | zero => omega
  | succ steps ih =>
    obtain ⟨cell, isCell⟩ : ∃ cell, heap[i]? = some cell := ⟨_, Array.getElem?_eq_getElem inside⟩
    cases cell with
    | constant c => exact ⟨i, Nat.le_refl _, by simp [State.follow, isCell], rfl, .inl ⟨c, isCell⟩⟩
    | ref t =>
      by_cases ends : t = i
      · subst ends
        exact ⟨t, Nat.le_refl _, by simp [State.follow, isCell], rfl, .inr isCell⟩
      · obtain ⟨below, equal⟩ := reads.ref isCell
        obtain ⟨d, least, reached, sameTerm, final⟩ := ih (by omega : t < heap.size) (by omega)
        exact ⟨d, by omega, by simpa [State.follow, isCell, ends] using reached,
          sameTerm.trans equal, final⟩

variable {s : State}

/-- The end of the chain from a cell. -/
theorem dereference (reads : Reads s.heap read) {i : Nat} (inside : i < s.heap.size) :
    s.dereference i < s.heap.size ∧ read (s.dereference i) = read i ∧
      ((∃ c, s.heap[s.dereference i]? = some (.constant c)) ∨
        s.heap[s.dereference i]? = some (.ref (s.dereference i))) := by
  obtain ⟨d, below, reached, sameTerm, final⟩ := reads.follow inside (by omega : i < s.heap.size + 1)
  have ends : s.dereference i = d := reached
  rw [ends]
  exact ⟨by omega, sameTerm, final⟩

theorem cell_of_constant (reads : Reads s.heap read) {i : Nat} (inside : i < s.heap.size)
    {c : String} (bound : read i = .constant c) :
    s.heap[s.dereference i]? = some (.constant c) := by
  obtain ⟨-, sameTerm, ⟨d, cell⟩ | cell⟩ := reads.dereference inside
  · have equal := reads.constant cell
    rw [sameTerm, bound, Term.constant.injEq] at equal
    rw [cell, equal]
  · obtain ⟨v, isVariable⟩ := reads.unbound cell
    rw [sameTerm, bound] at isVariable
    cases isVariable

theorem cell_of_var (reads : Reads s.heap read) {i : Nat} (inside : i < s.heap.size)
    {v : Variable} (free : read i = .var v) :
    s.heap[s.dereference i]? = some (.ref (s.dereference i)) := by
  obtain ⟨-, sameTerm, ⟨d, cell⟩ | cell⟩ := reads.dereference inside
  · have equal := reads.constant cell
    rw [sameTerm, free] at equal
    cases equal
  · exact cell

/-- The machine finds the constant that a cell stands for. -/
theorem constantAt_eq (reads : Reads s.heap read) {i : Nat} (inside : i < s.heap.size) :
    s.constantAt i = (read i).constant? := by
  unfold State.constantAt
  cases term : read i with
  | constant c => simp [reads.cell_of_constant inside term, Term.constant?]
  | var v => simp [reads.cell_of_var inside term, Term.constant?]

/-! ### Pushing cells -/

private theorem getElem?_push_eq_some {cell new : Cell} {i : Nat}
    (found : (heap.push new)[i]? = some cell) :
    (i < heap.size ∧ heap[i]? = some cell) ∨ (i = heap.size ∧ cell = new) := by
  rw [Array.getElem?_push] at found
  split at found
  · rename_i last
    exact .inr ⟨last, (Option.some.inj found).symm⟩
  · exact .inl ⟨(Array.getElem?_eq_some_iff.1 found).1, found⟩

private theorem update_of_lt {i : Nat} (t : Term) (inside : i < heap.size) :
    Function.update read heap.size t i = read i :=
  Function.update_of_ne (by omega) ..

theorem push_constant (reads : Reads heap read) (c : String) :
    Reads (heap.push (.constant c)) (Function.update read heap.size (.constant c)) := by
  constructor
  case constant =>
    intro i d cell
    obtain ⟨inside, cell⟩ | ⟨rfl, new⟩ := getElem?_push_eq_some cell
    · rw [update_of_lt _ inside, reads.constant cell]
    · cases new
      exact Function.update_self ..
  case ref =>
    intro i t cell
    obtain ⟨inside, cell⟩ | ⟨rfl, new⟩ := getElem?_push_eq_some cell
    · obtain ⟨below, equal⟩ := reads.ref cell
      exact ⟨below, by rw [update_of_lt _ inside, update_of_lt _ (by omega), equal]⟩
    · cases new
  case unbound =>
    intro i cell
    obtain ⟨inside, cell⟩ | ⟨rfl, new⟩ := getElem?_push_eq_some cell
    · rw [update_of_lt _ inside]
      exact reads.unbound cell
    · cases new
  case distinct =>
    intro i j left right equal
    obtain ⟨insideLeft, left⟩ | ⟨rfl, new⟩ := getElem?_push_eq_some left
    · obtain ⟨insideRight, right⟩ | ⟨rfl, new⟩ := getElem?_push_eq_some right
      · rw [update_of_lt _ insideLeft, update_of_lt _ insideRight] at equal
        exact reads.distinct left right equal
      · cases new
    · cases new

theorem push_ref (reads : Reads heap read) {d : Nat} (inside : d < heap.size) :
    Reads (heap.push (.ref d)) (Function.update read heap.size (read d)) := by
  constructor
  case constant =>
    intro i c cell
    obtain ⟨inside, cell⟩ | ⟨rfl, new⟩ := getElem?_push_eq_some cell
    · rw [update_of_lt _ inside, reads.constant cell]
    · cases new
  case ref =>
    intro i t cell
    obtain ⟨inside, cell⟩ | ⟨rfl, new⟩ := getElem?_push_eq_some cell
    · obtain ⟨below, equal⟩ := reads.ref cell
      exact ⟨below, by rw [update_of_lt _ inside, update_of_lt _ (by omega), equal]⟩
    · cases new
      exact ⟨by omega, by rw [update_of_lt _ inside, Function.update_self]⟩
  case unbound =>
    intro i cell
    obtain ⟨inside, cell⟩ | ⟨rfl, new⟩ := getElem?_push_eq_some cell
    · rw [update_of_lt _ inside]
      exact reads.unbound cell
    · cases new
      omega
  case distinct =>
    intro i j left right equal
    obtain ⟨insideLeft, left⟩ | ⟨rfl, new⟩ := getElem?_push_eq_some left
    · obtain ⟨insideRight, right⟩ | ⟨rfl, new⟩ := getElem?_push_eq_some right
      · rw [update_of_lt _ insideLeft, update_of_lt _ insideRight] at equal
        exact reads.distinct left right equal
      · cases new
        omega
    · cases new
      omega

theorem push_unbound (reads : Reads heap read) {v : Variable}
    (fresh : ∀ i < heap.size, read i ≠ .var v) :
    Reads (heap.push (.ref heap.size)) (Function.update read heap.size (.var v)) := by
  constructor
  case constant =>
    intro i c cell
    obtain ⟨inside, cell⟩ | ⟨rfl, new⟩ := getElem?_push_eq_some cell
    · rw [update_of_lt _ inside, reads.constant cell]
    · cases new
  case ref =>
    intro i t cell
    obtain ⟨inside, cell⟩ | ⟨rfl, new⟩ := getElem?_push_eq_some cell
    · obtain ⟨below, equal⟩ := reads.ref cell
      exact ⟨below, by rw [update_of_lt _ inside, update_of_lt _ (by omega), equal]⟩
    · cases new
      exact ⟨Nat.le_refl _, rfl⟩
  case unbound =>
    intro i cell
    obtain ⟨inside, cell⟩ | ⟨rfl, -⟩ := getElem?_push_eq_some cell
    · rw [update_of_lt _ inside]
      exact reads.unbound cell
    · exact ⟨v, Function.update_self ..⟩
  case distinct =>
    intro i j left right equal
    obtain ⟨insideLeft, left⟩ | ⟨rfl, -⟩ := getElem?_push_eq_some left <;>
      obtain ⟨insideRight, right⟩ | ⟨rfl, -⟩ := getElem?_push_eq_some right
    · rw [update_of_lt _ insideLeft, update_of_lt _ insideRight] at equal
      exact reads.distinct left right equal
    · rw [update_of_lt _ insideLeft, Function.update_self] at equal
      exact absurd equal (fresh i insideLeft)
    · rw [update_of_lt _ insideRight, Function.update_self] at equal
      exact absurd equal.symm (fresh j insideRight)
    · rfl

/-! ### Unifying cells -/

private theorem getElem?_setIfInBounds_eq_some {cell new : Cell} {d i : Nat}
    (found : (heap.setIfInBounds d new)[i]? = some cell) :
    (i = d ∧ cell = new) ∨ (i ≠ d ∧ heap[i]? = some cell) := by
  rw [Array.getElem?_setIfInBounds] at found
  split at found
  · rename_i same
    split at found
    · exact .inl ⟨same.symm, (Option.some.inj found).symm⟩
    · cases found
  · rename_i other
    exact .inr ⟨Ne.symm other, found⟩

/-- A reference that does not change keeps standing for what its target stands for. -/
private theorem ref_mapVariable (reads : Reads heap read) (δ : Substitution) {i t : Nat}
    (cell : heap[i]? = some (.ref t)) :
    t ≤ i ∧ (read t).mapVariable δ = (read i).mapVariable δ :=
  let ⟨below, equal⟩ := reads.ref cell
  ⟨below, by rw [equal]⟩

/-- Binding an unbound cell replaces its variable by the constant. -/
theorem bind (reads : Reads heap read) {d : Nat} (free : heap[d]? = some (.ref d)) {v : Variable}
    (isVar : read d = .var v) (c : String) :
    Reads (heap.setIfInBounds d (.constant c))
      fun i => (read i).mapVariable (replace v (.constant c)) := by
  -- no other unbound cell reads as the variable that is replaced
  have others : ∀ {i}, i ≠ d → heap[i]? = some (.ref i) →
      ∃ w ≠ v, read i = .var w ∧ (read i).mapVariable (replace v (.constant c)) = .var w := by
    intro i other cell
    obtain ⟨w, isW⟩ := reads.unbound cell
    have different : w ≠ v := by
      rintro rfl
      exact other (reads.distinct cell free (isW.trans isVar.symm))
    exact ⟨w, different, isW, by rw [isW, Term.mapVariable_var, replace_of_ne _ different]⟩
  constructor
  case constant =>
    intro i e cell
    obtain ⟨rfl, new⟩ | ⟨-, cell⟩ := getElem?_setIfInBounds_eq_some cell
    · cases new
      rw [isVar, Term.mapVariable_var, replace_self]
    · rw [reads.constant cell, Term.mapVariable_constant]
  case ref =>
    intro i t cell
    obtain ⟨-, new⟩ | ⟨-, cell⟩ := getElem?_setIfInBounds_eq_some cell
    · cases new
    · exact reads.ref_mapVariable _ cell
  case unbound =>
    intro i cell
    obtain ⟨-, new⟩ | ⟨other, cell⟩ := getElem?_setIfInBounds_eq_some cell
    · cases new
    · obtain ⟨w, -, -, now⟩ := others other cell
      exact ⟨w, now⟩
  case distinct =>
    intro i j left right equal
    obtain ⟨-, new⟩ | ⟨otherLeft, left⟩ := getElem?_setIfInBounds_eq_some left
    · cases new
    obtain ⟨-, new⟩ | ⟨otherRight, right⟩ := getElem?_setIfInBounds_eq_some right
    · cases new
    obtain ⟨w, -, wasLeft, nowLeft⟩ := others otherLeft left
    obtain ⟨w', -, wasRight, nowRight⟩ := others otherRight right
    refine reads.distinct left right ?_
    rw [wasLeft, wasRight, ← nowLeft, ← nowRight, equal]

/-- Letting one of two unbound cells refer to the other, an earlier one, puts one variable in place
of the other, whichever of the two it is. -/
theorem refer (reads : Reads heap read) {d e : Nat} (below : e < d)
    (freeHigh : heap[d]? = some (.ref d)) (freeLow : heap[e]? = some (.ref e)) {x y : Variable}
    (cells : (read d = .var x ∧ read e = .var y) ∨ (read d = .var y ∧ read e = .var x)) :
    Reads (heap.setIfInBounds d (.ref e)) fun i => (read i).mapVariable (replace x (.var y)) := by
  have joined : (read d).mapVariable (replace x (.var y)) = .var y ∧
      (read e).mapVariable (replace x (.var y)) = .var y := by
    obtain ⟨high, low⟩ | ⟨high, low⟩ := cells <;> rw [high, low] <;>
      by_cases same : y = x <;> simp [replace, same]
  -- an unbound cell other than these two stands for neither variable
  have kept : ∀ {i}, i ≠ d → i ≠ e → heap[i]? = some (.ref i) →
      ∃ w, w ≠ y ∧ read i = .var w ∧ (read i).mapVariable (replace x (.var y)) = .var w := by
    intro i otherHigh otherLow cell
    obtain ⟨w, isW⟩ := reads.unbound cell
    have notHigh : read i ≠ read d := fun same => otherHigh (reads.distinct cell freeHigh same)
    have notLow : read i ≠ read e := fun same => otherLow (reads.distinct cell freeLow same)
    obtain ⟨notX, notY⟩ : w ≠ x ∧ w ≠ y := by
      rw [isW] at notHigh notLow
      obtain ⟨high, low⟩ | ⟨high, low⟩ := cells <;> rw [high] at notHigh <;> rw [low] at notLow <;>
        simp_all
    exact ⟨w, notY, isW, by rw [isW, Term.mapVariable_var, replace_of_ne _ notX]⟩
  constructor
  case constant =>
    intro i c cell
    obtain ⟨-, new⟩ | ⟨-, cell⟩ := getElem?_setIfInBounds_eq_some cell
    · cases new
    · rw [reads.constant cell, Term.mapVariable_constant]
  case ref =>
    intro i t cell
    obtain ⟨rfl, new⟩ | ⟨-, cell⟩ := getElem?_setIfInBounds_eq_some cell
    · cases new
      exact ⟨by omega, joined.2.trans joined.1.symm⟩
    · exact reads.ref_mapVariable _ cell
  case unbound =>
    intro i cell
    obtain ⟨rfl, new⟩ | ⟨otherHigh, cell⟩ := getElem?_setIfInBounds_eq_some cell
    · cases new
      omega
    by_cases low : i = e
    · exact ⟨y, low ▸ joined.2⟩
    · obtain ⟨w, -, -, now⟩ := kept otherHigh low cell
      exact ⟨w, now⟩
  case distinct =>
    intro i j left right equal
    obtain ⟨rfl, new⟩ | ⟨highLeft, left⟩ := getElem?_setIfInBounds_eq_some left
    · cases new
      omega
    obtain ⟨rfl, new⟩ | ⟨highRight, right⟩ := getElem?_setIfInBounds_eq_some right
    · cases new
      omega
    by_cases lowLeft : i = e
    · by_cases lowRight : j = e
      · exact lowLeft.trans lowRight.symm
      · obtain ⟨w, notY, -, now⟩ := kept highRight lowRight right
        simp_all
    · obtain ⟨w, notY, was, now⟩ := kept highLeft lowLeft left
      by_cases lowRight : j = e
      · simp_all
      · obtain ⟨w', -, was', now'⟩ := kept highRight lowRight right
        exact reads.distinct left right (by rw [was, was', ← now, ← now', equal])

/-! ### Unification -/

/-- A unification that looks at nothing but the heap and changes nothing else. -/
def Unified (x : Exec Bool) (s : State) (read : Nat → Term) : Option Substitution → Prop
  | none => ∀ live : Live, live.state.heap = s.heap → x live = (.ok false, live)
  | some δ => ∃ heap, heap.size = s.heap.size ∧ Reads heap (fun i => (read i).mapVariable δ) ∧
      ∀ live : Live, live.state.heap = s.heap →
        x live = (.ok true, { live with state := { live.state with heap } })

private theorem unified_same (reads : Reads s.heap read) {x : Exec Bool} {δ : Substitution}
    (done : ∀ live : Live, live.state.heap = s.heap → x live = (.ok true, live))
    (same : ∀ i < s.heap.size, (read i).mapVariable δ = read i) : Unified x s read (some δ) := by
  refine ⟨s.heap, rfl, reads.congr same, fun live isHeap => ?_⟩
  rw [← isHeap]
  exact done live isHeap

private theorem dereference_of_heap {live : Live} (isHeap : live.state.heap = s.heap) (i : Nat) :
    live.state.dereference i = s.dereference i := by
  rw [State.dereference, State.dereference, isHeap]

/-- Unifying a cell with a constant is unifying the constant with what the cell stands for. -/
theorem unifyConstant (reads : Reads s.heap read) {i : Nat}
    (inside : i < s.heap.size) (c : String) :
    Unified (Exec.unifyConstant i c) s read ((Term.constant c).unifier? (read i)) := by
  obtain ⟨insideEnd, sameTerm, -⟩ := reads.dereference inside
  cases term : read i with
  | constant e =>
    have cell := reads.cell_of_constant inside term
    by_cases same : c = e
    · rw [Term.unifier?, if_pos same]
      refine unified_same reads (fun live isHeap => ?_) fun i _ => Term.mapVariable_id _
      simp [Exec.unifyConstant, dereference_of_heap isHeap, isHeap, cell, same]
    · rw [Term.unifier?, if_neg same]
      intro live isHeap
      simp [Exec.unifyConstant, dereference_of_heap isHeap, isHeap, cell,
        beq_false_of_ne (Ne.symm same)]
  | var v =>
    have cell := reads.cell_of_var inside term
    refine ⟨s.heap.setIfInBounds (s.dereference i) (.constant c),
      Array.size_setIfInBounds .., reads.bind cell (sameTerm.trans term) c, fun live isHeap => ?_⟩
    simp [Exec.unifyConstant, dereference_of_heap isHeap, isHeap, cell, State.setCell]

/-- Unifying two cells is unifying what they stand for. -/
theorem unifyCells (reads : Reads s.heap read) {i j : Nat}
    (left : i < s.heap.size) (right : j < s.heap.size) :
    Unified (Exec.unifyCells i j) s read ((read i).unifier? (read j)) := by
  obtain ⟨-, sameLeft, -⟩ := reads.dereference left
  obtain ⟨-, sameRight, -⟩ := reads.dereference right
  cases termLeft : read i with
  | constant c =>
    have cellLeft := reads.cell_of_constant left termLeft
    cases termRight : read j with
    | constant e =>
      have cellRight := reads.cell_of_constant right termRight
      by_cases same : c = e
      · rw [Term.unifier?, if_pos same]
        refine unified_same reads (fun live isHeap => ?_) fun i _ => Term.mapVariable_id _
        simp [Exec.unifyCells, dereference_of_heap isHeap, isHeap, cellLeft, cellRight, same]
      · rw [Term.unifier?, if_neg same]
        intro live isHeap
        simp [Exec.unifyCells, dereference_of_heap isHeap, isHeap, cellLeft, cellRight,
          beq_false_of_ne same]
    | var v =>
      have cellRight := reads.cell_of_var right termRight
      refine ⟨_, Array.size_setIfInBounds .., reads.bind cellRight (sameRight.trans termRight) c,
        fun live isHeap => ?_⟩
      simp [Exec.unifyCells, dereference_of_heap isHeap, isHeap, cellLeft, cellRight, State.setCell]
  | var v =>
    have cellLeft := reads.cell_of_var left termLeft
    cases termRight : read j with
    | constant e =>
      have cellRight := reads.cell_of_constant right termRight
      refine ⟨_, Array.size_setIfInBounds .., reads.bind cellLeft (sameLeft.trans termLeft) e,
        fun live isHeap => ?_⟩
      simp [Exec.unifyCells, dereference_of_heap isHeap, isHeap, cellLeft, cellRight, State.setCell]
    | var w =>
      have cellRight := reads.cell_of_var right termRight
      rw [termLeft] at sameLeft
      rw [termRight] at sameRight
      rw [Term.unifier?]
      -- of two unbound cells the later one comes to refer to the earlier one
      rcases Nat.lt_trichotomy (s.dereference i) (s.dereference j) with
        below | equal | below
      · refine ⟨_, Array.size_setIfInBounds ..,
          reads.refer below cellRight cellLeft (.inr ⟨sameRight, sameLeft⟩),
          fun live isHeap => ?_⟩
        simp [Exec.unifyCells, dereference_of_heap isHeap, isHeap, cellLeft, cellRight, State.setCell,
          Nat.ne_of_lt below,
          Nat.max_eq_right (Nat.le_of_lt below), Nat.min_eq_left (Nat.le_of_lt below)]
      · have same : v = w := by
          rw [equal, sameRight] at sameLeft
          exact (Term.var.inj sameLeft).symm
        refine unified_same reads (fun live isHeap => ?_) fun i _ => ?_
        · simp [Exec.unifyCells, dereference_of_heap isHeap, isHeap, cellRight, equal]
        subst same
        have kept : replace v (.var v) = Term.var := by
          funext u
          by_cases isV : u = v <;> simp [replace, isV]
        rw [kept, Term.mapVariable_id]
      · refine ⟨_, Array.size_setIfInBounds ..,
          reads.refer below cellLeft cellRight (.inl ⟨sameLeft, sameRight⟩),
          fun live isHeap => ?_⟩
        simp [Exec.unifyCells, dereference_of_heap isHeap, isHeap, cellLeft, cellRight, State.setCell,
          Nat.ne_of_gt below,
          Nat.max_eq_left (Nat.le_of_lt below), Nat.min_eq_right (Nat.le_of_lt below)]

variable {live : Live}

/-- Pushing what a cell stands for. -/
theorem pushResolved (reads : Reads live.state.heap read) {i : Nat}
    (inside : i < live.state.heap.size) :
    ∃ cell, Exec.pushResolved i live =
        (.ok (), { live with state := live.state.push cell }) ∧
      Reads (live.state.heap.push cell) (Function.update read live.state.heap.size (read i)) := by
  obtain ⟨insideEnd, sameTerm, -⟩ := reads.dereference inside
  cases term : read i with
  | constant c =>
    have cell := reads.cell_of_constant inside term
    exact ⟨.constant c, by simp [Exec.pushResolved, cell], reads.push_constant c⟩
  | var v =>
    have cell := reads.cell_of_var inside term
    refine ⟨.ref (live.state.dereference i), by simp [Exec.pushResolved, cell], ?_⟩
    rw [← term, ← sameTerm]
    exact reads.push_ref insideEnd

end Reads

end ProofWalk
