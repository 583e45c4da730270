import ProofWalk.Learning.Trainer
import ProofWalk.Proofs.Results

/-!
# Runs of trainers side by side

A run of a trainer takes steps on the examples that its lines hold. If every step keeps two trainings in
a relation and gives the same result, then whole runs give the same report and keep the relation as well,
whatever lines cannot be read, wherever the criterion ends the run and whatever the clock shows.

## Main definitions

* `Trainer.Keeps` — a relation between two trainings that steps and ends of epochs keep

## Main results

* `Trainer.Keeps.epochs` — epochs over given lines
* `Trainer.Keeps.train` — training on a file
-/

namespace ProofWalk

variable {m : Type → Type} [Monad m] [LawfulMonad m]

/-- Work that gives the same for every input and keeps a relation, which may tell how many inputs lie
ahead, does so for all inputs. -/
theorem Pipeline.runFrom_alongside {T O ω ω' σ : Type} {R : Nat → ω → ω' → Prop}
    {work : Work m T O ω} {work' : Work m T O ω'} (p : Pipeline) (sink : Sink O σ) {inputs : List T}
    (each : ∀ input ∈ inputs, ∀ task n w w', R (n + 1) w w' →
      Alongside (fun a b => a.1 = b.1 ∧ R n a.2 b.2) (work task input w) (work' task input w'))
    (task : Nat) (d : Delivery O σ) (stop : Option Error) {n : Nat} {w : ω} {w' : ω'}
    (start : R (n + inputs.length) w w') :
    Alongside (fun a b => a.1 = b.1 ∧ R n a.2.1 b.2.1 ∧ a.2.2 = b.2.2)
      (p.runFrom work sink task w d stop inputs) (p.runFrom work' sink task w' d stop inputs) := by
  induction inputs generalizing task d stop w w' with
  | nil => exact .pure ⟨rfl, start, rfl⟩
  | cons input rest ih =>
    have others := fun task d stop w w' => @ih (fun other member => each other (by simp [member]))
      task d stop w w'
    rw [runFrom, runFrom]
    refine (each input List.mem_cons_self task _ w w' start).bind ?_
    rintro ⟨result, w⟩ ⟨_, w'⟩ ⟨rfl, ahead⟩
    dsimp only
    split
    · exact others _ _ _ _ _ ahead
    · exact others _ _ _ _ _ ahead

theorem Pipeline.run_alongside {T O ω ω' σ : Type} {R : Nat → ω → ω' → Prop}
    {work : Work m T O ω} {work' : Work m T O ω'} (p : Pipeline) (sink : Sink O σ) {inputs : List T}
    (each : ∀ input ∈ inputs, ∀ task n w w', R (n + 1) w w' →
      Alongside (fun a b => a.1 = b.1 ∧ R n a.2 b.2) (work task input w) (work' task input w'))
    (s : σ) {n : Nat} {w : ω} {w' : ω'} (start : R (n + inputs.length) w w') :
    Alongside (fun a b => a.1 = b.1 ∧ R n a.2.1 b.2.1 ∧ a.2.2 = b.2.2)
      (p.run work sink w s inputs) (p.run work' sink w' s inputs) := by
  rw [run, run]
  refine (p.runFrom_alongside sink each 1 (.start s) none start).bind ?_
  rintro ⟨stop, w, d⟩ ⟨_, w', _⟩ ⟨rfl, ahead, rfl⟩
  exact .pure ⟨rfl, ahead, rfl⟩

namespace Trainer

variable {K : Type} [Scalar K]

/-- Two trainings that steps on certain examples and ends of epochs keep in a relation and that show the
same. The relation may tell how many lines lie ahead at most. -/
structure Keeps (certain : TrainingExample → Prop) (R : Nat → Training K → Training K → Prop) : Prop where
  fewer : ∀ n t t', R (n + 1) t t' → R n t t'
  step : ∀ n t t' e number, certain e → R (n + 1) t t' →
    ((t.introduce e.graph).step e number).1 = ((t'.introduce e.graph).step e number).1 ∧
      R n ((t.introduce e.graph).step e number).2 ((t'.introduce e.graph).step e number).2
  endEpoch : ∀ n t t' number, R n t t' →
    (t.endEpoch number).1 = (t'.endEpoch number).1 ∧ R n (t.endEpoch number).2 (t'.endEpoch number).2

namespace Keeps

variable [Clock m] {certain : TrainingExample → Prop} {R : Nat → Training K → Training K → Prop}
  {index : Option FeatureTable} {lines : List String} {n : Nat} {t t' : Training K}

theorem mono (keeps : Keeps certain R) (more : Nat) (related : R (n + more) t t') : R n t t' := by
  induction more with
  | zero => exact related
  | succ more ih => exact ih (keeps.fewer _ _ _ related)

theorem work (keeps : Keeps certain R) {line : String}
    (reads : ∀ e, TrainingExample.parse? line index = .ok e → certain e) (number task : Nat)
    (related : R (n + 1) t t') :
    Alongside (fun a b => a.1 = b.1 ∧ R n a.2 b.2) (Trainer.work (m := m) index number task line t)
      (Trainer.work index number task line t') := by
  unfold Trainer.work
  refine .bind_same _ fun started => ?_
  cases read : TrainingExample.parse? line index with
  | error e => exact .pure ⟨rfl, keeps.fewer _ _ _ related⟩
  | ok e =>
    obtain ⟨same, after⟩ := keeps.step n t t' e number (reads e read) related
    dsimp only
    generalize (t.introduce e.graph).step e number = x at same after ⊢
    generalize (t'.introduce e.graph).step e number = y at same after ⊢
    obtain ⟨result, t⟩ := x
    obtain ⟨_, t'⟩ := y
    cases same
    exact .bind_same _ fun parsed => .bind_same _ fun trained => .pure ⟨rfl, after⟩

/-- An epoch over lines. -/
theorem epoch (keeps : Keeps certain R)
    (reads : ∀ line ∈ lines, ∀ e, TrainingExample.parse? line index = .ok e → certain e)
    (p : Pipeline) (number : Nat) (related : R (n + lines.length) t t') :
    Alongside (fun a b => a.1 = b.1 ∧ R n a.2 b.2) (Trainer.epoch (m := m) p index lines number t)
      (Trainer.epoch p index lines number t') := by
  unfold Trainer.epoch
  refine .bind_same _ fun started => ?_
  refine (p.run_alongside (R := R) _ (fun line member task _ _ _ related =>
    keeps.work (reads line member) number task related) _ related).bind ?_
  rintro ⟨r, t, report⟩ ⟨_, t', _⟩ ⟨rfl, ahead, rfl⟩
  cases r with
  | error e => exact .pure ⟨rfl, ahead⟩
  | ok counts =>
    obtain ⟨same, after⟩ := keeps.endEpoch n t t' number ahead
    dsimp only
    generalize t.endEpoch number = x at same after ⊢
    generalize t'.endEpoch number = y at same after ⊢
    obtain ⟨loss, t⟩ := x
    obtain ⟨_, t'⟩ := y
    cases same
    exact .bind_same _ fun ended => .pure ⟨rfl, after⟩

/-- At most so many epochs, up to the one that ends the run. -/
theorem epochs (keeps : Keeps certain R)
    (reads : ∀ line ∈ lines, ∀ e, TrainingExample.parse? line index = .ok e → certain e)
    (p : Pipeline) (limit : Nat) (stopping : Stopping K) (report : TrainingReport K)
    (related : R (n + limit * lines.length) t t') :
    Alongside (fun a b => a.1 = b.1 ∧ R n a.2 b.2)
      (Trainer.epochs (m := m) p index lines limit stopping report t)
      (Trainer.epochs p index lines limit stopping report t') := by
  induction limit generalizing stopping report t t' with
  | zero => exact .pure ⟨rfl, keeps.mono _ related⟩
  | succ limit ih =>
    rw [Trainer.epochs, Trainer.epochs]
    split
    · exact .pure ⟨rfl, keeps.mono _ related⟩
    rw [Nat.succ_mul, ← Nat.add_assoc] at related
    refine (keeps.epoch reads p _ related).bind ?_
    rintro ⟨r, t⟩ ⟨_, t'⟩ ⟨rfl, ahead⟩
    cases r with
    | error e => exact .pure ⟨rfl, keeps.mono _ ahead⟩
    | ok e =>
      dsimp only
      split
      · exact .pure ⟨rfl, keeps.mono _ ahead⟩
      · split
        · exact ih _ _ ahead
        · exact ih _ _ ahead

/-- Training on a file, however many lines it has. -/
theorem train [Files m] (keeps : Keeps certain R) (all : ∀ e, certain e) (r : Trainer K)
    (grounded : String) {p p' : Parameters K}
    (related : ∀ n, R n { learner := r.learner.copy.1, parameters := p }
      { learner := r.learner.copy.1, parameters := p' }) :
    Alongside (fun a b => a.1 = b.1 ∧ ∃ l l', R 0 { learner := l, parameters := a.2 }
        { learner := l', parameters := b.2 })
      (Trainer.train (m := m) r grounded p) (Trainer.train r grounded p') := by
  unfold Trainer.train
  refine .bind_same _ fun index => ?_
  cases index with
  | error e => exact .pure ⟨rfl, _, _, related 0⟩
  | ok index =>
    dsimp only
    split
    · exact .pure ⟨rfl, _, _, related 0⟩
    refine .bind_same _ fun read => ?_
    cases read with
    | error e => exact .pure ⟨rfl, _, _, related 0⟩
    | ok lines =>
      refine (keeps.epochs (n := 0) (fun _ _ e _ => all e) r.pipeline _ _ _ (related _)).bind ?_
      rintro ⟨result, t⟩ ⟨_, t'⟩ ⟨rfl, after⟩
      exact .pure ⟨rfl, _, _, after⟩

end Keeps

end Trainer

end ProofWalk
