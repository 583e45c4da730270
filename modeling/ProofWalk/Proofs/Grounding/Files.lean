import ProofWalk.Proofs.Grounding.Index

/-!
# Grounding a file

A file is grounded line by line, by tasks that share one table. The tasks run one after the other, so the
table that is written in the end is that of grounding the examples of all lines in turn, and every line
that is written is that of an example which has been grounded so.

## Main definitions

* `Grounder.examplesFrom` — the examples on numbered lines
* `Delivery.All` — all outputs that have arrived are good

## Main results

* `Grounder.run_work` — what grounding a file leaves and writes
-/

namespace ProofWalk

/-! ### Outputs -/

namespace Delivery

variable {O : Type} {good : O → Prop} {d : Delivery O (List O)} {task : Nat} {out : Outcome O}

/-- All outputs that have arrived are good, those that have been taken and those that wait. -/
structure All (good : O → Prop) (d : Delivery O (List O)) : Prop where
  taken : ∀ o ∈ d.sink, good o
  waiting : ∀ w ∈ d.waiting, ∀ o, w.2 = .output o → good o

theorem All.emit (all : d.All good) (isGood : ∀ o, out = .output o → good o) :
    (emit Pipeline.gather d task out).All good := by
  unfold Delivery.emit
  cases out with
  | skipped => exact ⟨all.taken, all.waiting⟩
  | failed => exact ⟨all.taken, all.waiting⟩
  | output o =>
    simp only
    split
    · exact all
    · exact ⟨List.forall_mem_cons.2 ⟨isGood o rfl, all.taken⟩, all.waiting⟩

theorem All.release (all : d.All good) (limit : Nat) : (release Pipeline.gather limit d).All good := by
  induction limit generalizing d with
  | zero => exact all
  | succ limit ih =>
    unfold Delivery.release
    split
    · exact all
    · rename_i out found
      obtain ⟨front, back, isEntry, -⟩ := List.lookup_eq_some_iff.1 found
      have waits : (d.next, out) ∈ d.waiting := by
        rw [isEntry]
        exact List.mem_append_right _ (List.mem_cons_self ..)
      refine ih (All.emit ⟨all.taken, fun w member => ?_⟩ (all.waiting _ waits))
      exact all.waiting w (List.mem_of_mem_filter member)

theorem All.arrive (all : d.All good) (inOrder : Bool) (isGood : ∀ o, out = .output o → good o) :
    (arrive inOrder Pipeline.gather d task out).All good := by
  unfold Delivery.arrive
  split
  · have waits : ({ d with waiting := (task, out) :: d.waiting } : Delivery O (List O)).All good :=
      ⟨all.taken, List.forall_mem_cons.2 ⟨isGood, all.waiting⟩⟩
    exact waits.release _
  · exact all.emit isGood

theorem All.submit (all : d.All good) : d.submit.All good := ⟨all.taken, all.waiting⟩

end Delivery

/-- Only an output is handed in as one. -/
theorem Pipeline.eq_some_of_outcome {O : Type} {result : Except Error (Option O)} {o : O}
    (handsIn : outcome result = .ok (.output o)) : result = .ok (some o) := by
  unfold outcome at handsIn
  split at handsIn
  · cases handsIn
    rfl
  · cases handsIn
  · split at handsIn <;> cases handsIn

/-! ### Tasks -/

namespace Grounder

/-- The examples on lines, of which the first has a given number. Lines that hold none are passed over. -/
def examplesFrom (task : Nat) (lines : List String) : List LabelledExample :=
  (lines.zipIdx task).filterMap fun line => (LabelledExample.parse? line.1 line.2).toOption

variable {r : Grounder}

/-- A task leaves the table of its example, and hands in nothing but its line. -/
theorem groundToLine_spec {K : Type} [Scalar K] (r : Grounder) (p : Prover K) (id : Nat)
    (e : LabelledExample) (s : GroundingState) :
    (r.groundToLine p id e s).2.features = (r.ground p s.features e).2 ∧
      ∀ line, (r.groundToLine p id e s).1 = .ok (some line) →
        ∃ x, (r.ground p s.features e).1 = .ok x ∧ x.line = line := by
  unfold groundToLine
  rcases r.ground p s.features e with ⟨err | x, features⟩
  · exact ⟨rfl, fun line failed => by cases failed⟩
  · simp only
    split
    · exact ⟨rfl, fun line none => by cases none⟩
    -- counting the examples without labels does not change the table
    have table (s : GroundingState) (unlabelled : Bool) :
        (if unlabelled then { s with statistics := s.statistics.addWithoutLabels } else s).features =
          s.features := by
      cases unlabelled <;> rfl
    split
    · exact ⟨table _ _, fun line none => by cases none⟩
    · refine ⟨table _ _, fun line done => ?_⟩
      cases done
      exact ⟨x, rfl, rfl⟩

theorem examplesFrom_cons (task : Nat) (line : String) (rest : List String) :
    examplesFrom task (line :: rest) =
      (LabelledExample.parse? line task).toOption.toList ++ examplesFrom (task + 1) rest := by
  unfold examplesFrom
  rw [List.zipIdx_cons, List.filterMap_cons]
  cases (LabelledExample.parse? line task).toOption <;> rfl

theorem groundAll_append {K : Type} [Scalar K] (r : Grounder) (p : Prover K) (features : FeatureTable)
    (examples more : List LabelledExample) :
    r.groundAll p features (examples ++ more) =
      ((r.groundAll p features examples).1 ++
          (r.groundAll p (r.groundAll p features examples).2 more).1,
        (r.groundAll p (r.groundAll p features examples).2 more).2) := by
  induction examples generalizing features with
  | nil => rfl
  | cons e rest ih =>
    rw [List.cons_append, groundAll, ih]
    rfl

section

variable {m : Type → Type} [Monad m] [LawfulMonad m]

omit [LawfulMonad m] in
/-- A task grounds the example of its line, if it holds one, and hands in nothing but its line. -/
theorem work_spec (r : Grounder) (p : Prover Float) (task : Nat) (line : String) (s : GroundingState) :
    ∃ result s', (r.work p : Pipeline.Work m _ _ _) task line s = pure (result, s') ∧
      s'.features =
        (r.groundAll p s.features (LabelledExample.parse? line task).toOption.toList).2 ∧
      ∀ o, result = .ok (some o) → ∃ x,
        .ok x ∈ (r.groundAll p s.features (LabelledExample.parse? line task).toOption.toList).1 ∧
          x.line = o := by
  unfold work
  cases LabelledExample.parse? line task with
  | error e => exact ⟨_, s, rfl, rfl, fun o failed => by cases failed⟩
  | ok e =>
    obtain ⟨table, lines⟩ := r.groundToLine_spec p task e s
    refine ⟨_, _, rfl, table, fun o handsIn => ?_⟩
    obtain ⟨x, grounded, isLine⟩ := lines o handsIn
    exact ⟨x, List.mem_singleton.2 grounded.symm, isLine⟩

/-- Running the tasks of lines grounds their examples in turn. -/
theorem runFrom_work (r : Grounder) (p : Prover Float) (q : Pipeline) {good : String → Prop}
    (lines : List String) (task : Nat) (s : GroundingState) (d : Delivery String (List String))
    (stop : Option Error) (all : d.All good)
    (areGood : ∀ x, .ok x ∈ (r.groundAll p s.features (examplesFrom task lines)).1 → good x.line) :
    ∃ stop' s' d', q.runFrom (n := m) (r.work p) Pipeline.gather task s d stop lines =
        pure (stop', s', d') ∧
      s'.features = (r.groundAll p s.features (examplesFrom task lines)).2 ∧ d'.All good := by
  induction lines generalizing task s d stop with
  | nil => exact ⟨stop, s, d, rfl, rfl, all⟩
  | cons line rest ih =>
    obtain ⟨result, s₁, done, table, here⟩ := r.work_spec (m := m) p task line s
    rw [examplesFrom_cons, groundAll_append, ← table] at areGood ⊢
    have others : ∀ x, .ok x ∈ (r.groundAll p s₁.features (examplesFrom (task + 1) rest)).1 → good x.line :=
      fun x member => areGood x (List.mem_append_right _ member)
    rw [Pipeline.runFrom, done, pure_bind]
    simp only
    split
    · rename_i out handed
      refine ih _ _ _ _ (all.submit.arrive _ fun o isOutput => ?_) others
      subst isOutput
      obtain ⟨x, member, rfl⟩ := here o (Pipeline.eq_some_of_outcome handed)
      exact areGood x (List.mem_append_left _ member)
    · exact ih _ _ _ _ all.submit others

/-- Grounding the lines of a file leaves the table of grounding their examples in turn, and writes nothing
but lines of examples that have been grounded so. -/
theorem run_work (r : Grounder) (p : Prover Float) (q : Pipeline) (lines : List String) :
    ∃ result s outputs, q.run (n := m) (r.work p) Pipeline.gather (.new .empty) [] lines =
        pure (result, s, outputs) ∧
      s.features = (r.groundAll p .empty (examplesFrom 1 lines)).2 ∧
      ∀ line ∈ outputs, ∃ x, .ok x ∈ (r.groundAll p .empty (examplesFrom 1 lines)).1 ∧ x.line = line := by
  have start : (Delivery.start []).All fun line => ∃ x,
      .ok x ∈ (r.groundAll p .empty (examplesFrom 1 lines)).1 ∧ x.line = line :=
    ⟨List.forall_mem_nil _, List.forall_mem_nil _⟩
  obtain ⟨stop, s, d, ran, table, all⟩ := r.runFrom_work (m := m) p q lines 1 (.new .empty) _ none start
    fun x member => ⟨x, member, rfl⟩
  have done : ∃ result, q.run (n := m) (r.work p) Pipeline.gather (.new .empty) [] lines =
      pure (result, s, d.sink) := by
    rw [Pipeline.run, ran, pure_bind]
    exact ⟨_, rfl⟩
  obtain ⟨result, done⟩ := done
  exact ⟨result, s, d.sink, done, table, all.taken⟩

end

end Grounder

end ProofWalk
