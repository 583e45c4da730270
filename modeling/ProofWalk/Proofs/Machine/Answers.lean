import ProofWalk.Machine.Key
import ProofWalk.Proofs.Machine.Expansion

/-!
# Answers

The lowest window of a state holds the variables of the root. What the machine reads there is the
answer of the resolvent that the state stands for.

## Main results

* `Waiting.rootWindow`, `Solved.rootWindow` — the lowest window
* `Represents.bindings_eq` — the bindings of a state are the constants of the answer
* `Represents.fill_eq` — the query with its bindings in place
-/

namespace ProofWalk

/-- The lowest window is that of the last activation, and ends at the floor. -/
theorem Callers.lowest {code : Code} {registers : Array (Option Nat)} {size limit : Nat}
    {read : Nat → Term} {frames : List Frame} {activations : List Activation} {root : Root}
    {answer : List Term} {silent : List Variable}
    (valid : Callers code registers size read limit frames activations)
    (rooted : Rooted root answer silent activations) :
    ∃ f, frames.getLast? = some f ∧ ∃ b ∈ activations,
      Window registers size read f.registerTop b ∧ b.vars = root.vars ∧
        b.vars.map b.value = answer ∧ b.unset = silent := by
  induction valid with
  | nil => exact rooted.elim
  | @cons _ f a frames callers _ window _ rest ih =>
    cases rest with
    | nil => exact ⟨f, rfl, a, by simp, window, rooted.1, rooted.2.2⟩
    | cons =>
      obtain ⟨last, isLast, b, member, found⟩ := ih rooted.2
      exact ⟨last, isLast, b, List.mem_cons_of_mem _ member, found⟩

/-- The positions of distinct variables. -/
theorem map_idxOf_eq_range {vs : List Variable} (nodup : vs.Nodup) :
    vs.map vs.idxOf = List.range vs.length := by
  refine List.ext_getElem (by simp) fun i inside _ => ?_
  rw [List.getElem_map, List.getElem_range]
  exact nodup.idxOf_getElem i (by simpa using inside)

section Root

variable {code : Code} {root : Root} {read : Nat → Term} {s : State} {r : Resolvent}
  {silent : List Variable}

/-- The lowest window of a waiting state is that of the root. -/
theorem Waiting.rootWindow {activations : List Activation}
    (waiting : Waiting code root read activations s r silent) :
    ∃ b ∈ activations, Window s.registers s.heap.size read s.floor b ∧ b.vars = root.vars ∧
      b.vars.map b.value = r.answer ∧ b.unset = silent := by
  obtain ⟨f, last, found⟩ := waiting.callers.lowest waiting.rooted
  have floor : s.floor = f.registerTop := by rw [State.floor, last]
  rwa [floor]

/-- The window of a solved state is that of the root. -/
theorem Solved.rootWindow {a : Activation} (solved : Solved code root read a s r silent) :
    Window s.registers s.heap.size read s.floor a ∧ a.vars = root.vars ∧
      a.vars.map a.value = r.answer ∧ a.unset = silent := by
  have floor : s.floor = s.registers.size := by rw [State.floor, solved.calls]; rfl
  rw [floor]
  exact ⟨solved.window, solved.rooted.1, solved.rooted.2.2⟩

/-- What a register of the lowest window holds is what its variable stands for. -/
theorem Window.constant_eq {b : Activation} {next : Nat} {activations : List Activation}
    (window : Window s.registers s.heap.size read b.vars.length b) (member : b ∈ activations)
    (reads : Reads s.heap read) (fresh : Fresh read s.heap.size next activations) {v : Variable}
    (known : v ∈ b.vars) :
    (s.registers[b.vars.idxOf v]?.join.bind fun cell => (s.constantAt cell).map Term.constant) =
      (b.value v).constant?.map Term.constant := by
  have slot : b.slot b.vars.length v = b.vars.idxOf v := by
    rw [Activation.slot, Nat.sub_self, Nat.zero_add]
  rw [← slot]
  by_cases seen : v ∈ b.seen
  · obtain ⟨-, cell, inside, held, stands⟩ := window.set v seen
    rw [held, Option.join_some, Option.bind_some, reads.constantAt_eq inside, stands]
  · have free : v ∈ b.unset := Activation.mem_unset.2 ⟨known, seen⟩
    rw [window.unset v free]
    obtain ⟨x, isVar, -⟩ := fresh.free (b.value v)
      (List.mem_flatMap.2 ⟨b, member, List.mem_map.2 ⟨v, free, rfl⟩⟩)
    rw [isVar]
    rfl

private theorem bindings_of_window {b : Activation} {next : Nat} {activations : List Activation}
    (window : Window s.registers s.heap.size read b.vars.length b) (member : b ∈ activations)
    (reads : Reads s.heap read) (fresh : Fresh read s.heap.size next activations)
    (count : code.queryRegisters = b.vars.length) :
    code.bindings s = (b.vars.map b.value).map fun t => t.constant?.map Term.constant := by
  rw [Code.bindings, count, ← map_idxOf_eq_range window.nodup, List.map_map, List.map_map]
  exact List.map_congr_left fun v known => window.constant_eq member reads fresh known

/-- The bindings of a state are the constants of the answer. -/
theorem Represents.bindings_eq (represents : Represents code root s r silent)
    (floor : s.floor = root.vars.length) (count : code.queryRegisters = root.vars.length) :
    code.bindings s = r.answer.map fun t => t.constant?.map Term.constant := by
  obtain ⟨read, activations, waiting⟩ | ⟨read, a, solved⟩ := represents
  · obtain ⟨b, member, window, vars, answer, -⟩ := waiting.rootWindow
    rw [floor, ← vars] at window
    rw [bindings_of_window window member waiting.reads waiting.fresh (vars ▸ count), answer]
  · obtain ⟨window, vars, answer, -⟩ := solved.rootWindow
    rw [floor, ← vars] at window
    rw [bindings_of_window window (List.mem_singleton_self a) solved.reads solved.fresh
      (vars ▸ count), answer]

end Root

/-- Putting the constants of an answer in place. -/
theorem Query.substitute_constants (q : Query) (answer : List Term) :
    q.substitute (answer.map fun t => t.constant?.map Term.constant) = q.answered answer := by
  rw [Query.substitute, Query.answered]
  congr 1
  funext v
  rw [lookup_zip_map_right]
  cases (q.vars.zip answer).lookup v with
  | none => rfl
  | some t => cases t <;> rfl

/-- The query with its bindings in place is the answer of the resolvent. -/
theorem Represents.fill_eq {code : Code} {q : Query} {s : State} {r : Resolvent}
    {silent : List Variable} (represents : Represents code (.ofQuery q) s r silent)
    (floor : s.floor = q.vars.length) (count : code.queryRegisters = q.vars.length) :
    code.fill q s = q.answered r.answer := by
  rw [Code.fill, represents.bindings_eq floor count, Query.substitute_constants]

end ProofWalk
