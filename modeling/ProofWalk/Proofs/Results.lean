import Mathlib.Data.List.Forall2

/-!
# Results and failures

What is known of the parts of a computation that ends in a result, and of two computations that go side
by side.

## Main definitions

* `Corresponds` — two results are related, or both are the same failure
* `Simulates` — two computations that correspond whenever they start in related states
* `answers` — what is replied to calls in turn
* `Alongside` — two computations with the same effects, whatever effects there are
-/

namespace ProofWalk

theorem Except.bind_eq_ok {ε α β : Type} {x : Except ε α} {f : α → Except ε β} {b : β} :
    (x >>= f) = .ok b ↔ ∃ a, x = .ok a ∧ f a = .ok b := by
  cases x with
  | error e => exact ⟨fun equal => (by cases equal), fun ⟨_, equal, _⟩ => (by cases equal)⟩
  | ok a => exact ⟨fun equal => ⟨a, rfl, equal⟩, fun ⟨_, equal, result⟩ => by cases equal; exact result⟩

theorem Except.map_eq_ok {ε α β : Type} {x : Except ε α} {f : α → β} {b : β} :
    f <$> x = .ok b ↔ ∃ a, x = .ok a ∧ f a = b := by
  cases x with
  | error e => exact ⟨fun equal => (by cases equal), fun ⟨_, equal, _⟩ => (by cases equal)⟩
  | ok a =>
    refine ⟨fun equal => ⟨a, rfl, ?_⟩, fun ⟨_, equal, result⟩ => by cases equal; rw [← result]; rfl⟩
    cases equal
    rfl

theorem Except.bind_eq_error {ε α β : Type} {x : Except ε α} {f : α → Except ε β} {e : ε} :
    (x >>= f) = .error e ↔ x = .error e ∨ ∃ a, x = .ok a ∧ f a = .error e := by
  cases x with
  | error e' =>
    refine ⟨fun equal => .inl (by cases equal; rfl), ?_⟩
    rintro (equal | ⟨_, equal, _⟩)
    · cases equal
      rfl
    · cases equal
  | ok a =>
    refine ⟨fun equal => .inr ⟨a, rfl, equal⟩, ?_⟩
    rintro (equal | ⟨_, equal, failed⟩)
    · cases equal
    · cases equal
      exact failed

/-- What holds of the errors of all steps holds of the error of a loop. -/
theorem Except.foldlM_error {ε α β : Type} {f : β → α → Except ε β} {as : List α} {P : ε → Prop}
    (each : ∀ b, ∀ a ∈ as, ∀ e, f b a = .error e → P e) {b : β} {e : ε}
    (failed : as.foldlM f b = .error e) : P e := by
  induction as generalizing b with
  | nil => cases failed
  | cons a rest ih =>
    rw [List.foldlM_cons] at failed
    rcases Except.bind_eq_error.1 failed with failed | ⟨b', -, failed⟩
    · exact each b a (List.mem_cons_self ..) e failed
    · exact ih (fun b a member => each b a (List.mem_cons_of_mem _ member)) failed

theorem Except.mapM_congr {ε α β γ : Type} {f : α → Except ε γ} {f' : β → Except ε γ} {as : List α}
    {bs : List β} (same : List.Forall₂ (fun a b => f a = f' b) as bs) : as.mapM f = bs.mapM f' := by
  induction same with
  | nil => rfl
  | cons first _ ih => rw [List.mapM_cons, List.mapM_cons, first, ih]

/-- What stands in the second of two lists that go side by side has a partner in the first. -/
theorem exists_of_forall₂ {α β : Type} {R : α → β → Prop} {as : List α} {bs : List β}
    (related : List.Forall₂ R as bs) {b : β} (member : b ∈ bs) : ∃ a ∈ as, R a b := by
  induction related with
  | nil => cases member
  | @cons a' b' as bs first _ ih =>
    rcases List.mem_cons.1 member with rfl | member
    · exact ⟨a', List.mem_cons_self .., first⟩
    · obtain ⟨a, inRest, isRelated⟩ := ih member
      exact ⟨a, List.mem_cons_of_mem _ inRest, isRelated⟩

/-- What is made of the elements of a list goes side by side with them. -/
theorem Except.forall₂_of_mapM {ε α β : Type} {f : α → Except ε β} {as : List α} {bs : List β}
    (mapped : as.mapM f = .ok bs) : List.Forall₂ (fun a b => f a = .ok b) as bs := by
  induction as generalizing bs with
  | nil =>
    cases mapped
    exact .nil
  | cons a rest ih =>
    rw [List.mapM_cons] at mapped
    obtain ⟨b, first, others⟩ := Except.bind_eq_ok.1 mapped
    obtain ⟨made, behind, equal⟩ := Except.bind_eq_ok.1 others
    cases equal
    exact .cons first (ih behind)

theorem Except.exists_of_mapM {ε α β : Type} {f : α → Except ε β} {as : List α} {bs : List β}
    (mapped : as.mapM f = .ok bs) {b : β} (member : b ∈ bs) : ∃ a ∈ as, f a = .ok b :=
  exists_of_forall₂ (Except.forall₂_of_mapM mapped) member

/-- Three lists that go side by side, of which the first and the last have the same to show. -/
theorem map_eq_map_of_forall₂ {α β γ δ : Type} {R : α → β → Prop} {S : β → γ → Prop} {f : α → δ}
    {g : γ → δ} (same : ∀ a b c, R a b → S b c → f a = g c) {as : List α} {bs : List β} {cs : List γ}
    (first : List.Forall₂ R as bs) (second : List.Forall₂ S bs cs) : as.map f = cs.map g := by
  induction first generalizing cs with
  | nil =>
    cases second
    rfl
  | cons related _ ih =>
    cases second with
    | cons related' rest => rw [List.map_cons, List.map_cons, same _ _ _ related related', ih rest]

/-- Two lists that go side by side, whose elements hold the same. -/
theorem flatMap_eq_of_forall₂ {α β γ : Type} {R : α → β → Prop} {f : α → List γ} {g : β → List γ}
    {as : List α} {bs : List β} (related : List.Forall₂ R as bs) (same : ∀ a b, R a b → f a = g b) :
    as.flatMap f = bs.flatMap g := by
  induction related with
  | nil => rfl
  | cons first _ ih => rw [List.flatMap_cons, List.flatMap_cons, same _ _ first, ih]

theorem eq_map_some_of_mapM_id {α : Type} {as : List (Option α)} {bs : List α}
    (bound : as.mapM id = some bs) : as = bs.map some := by
  induction as generalizing bs with
  | nil =>
    cases bound
    rfl
  | cons a rest ih =>
    rw [List.mapM_cons] at bound
    obtain ⟨b, isBound, others⟩ := Option.bind_eq_some_iff.1 bound
    obtain ⟨behind, found, equal⟩ := Option.bind_eq_some_iff.1 others
    cases equal
    rw [List.map_cons, ← ih found]
    exact congrArg (· :: rest) isBound

section

variable {ε σ α β : Type}

/-- A computation that may fail goes on from the state that it has left behind. -/
theorem bind_apply (x : ExceptT ε (StateM σ) α) (f : α → ExceptT ε (StateM σ) β)
    (s : σ) :
    (x >>= f) s = match x s with
      | (.ok a, s') => f a s'
      | (.error e, s') => (.error e, s') := by
  change ExceptT.bind x f s = _
  simp only [ExceptT.bind, ExceptT.mk, bind, StateT.bind]
  rcases x s with ⟨_ | _, _⟩ <;> rfl

theorem bind_of_ok {x : ExceptT ε (StateM σ) α} {s s' : σ} {a : α} (done : x s = (.ok a, s'))
    (f : α → ExceptT ε (StateM σ) β) : (x >>= f) s = f a s' := by
  rw [bind_apply, done]

theorem foldlM_cons_of_ok {f : β → α → ExceptT ε (StateM σ) β} {b b' : β} {a : α} {s s' : σ}
    (first : f b a s = (.ok b', s')) (rest : List α) :
    (a :: rest).foldlM f b s = rest.foldlM f b' s' := by
  rw [List.foldlM_cons, bind_of_ok first]

theorem bind_eq_ok {x : ExceptT ε (StateM σ) α} {f : α → ExceptT ε (StateM σ) β} {s s' : σ} {b : β}
    (done : (x >>= f) s = (.ok b, s')) : ∃ a s₁, x s = (.ok a, s₁) ∧ f a s₁ = (.ok b, s') := by
  rw [bind_apply] at done
  rcases first : x s with ⟨_ | a, s₁⟩
  · rw [first] at done
    cases done
  · rw [first] at done
    exact ⟨a, s₁, rfl, done⟩

theorem pure_eq_ok {a b : α} {s s' : σ} (done : (pure a : ExceptT ε (StateM σ) α) s = (.ok b, s')) :
    a = b ∧ s = s' := by
  cases done
  exact ⟨rfl, rfl⟩

end

/-! ### Two computations -/

/-- Two results are related, or both are the same failure. -/
inductive Corresponds {ε α β : Type} (A : α → β → Prop) : Except ε α → Except ε β → Prop
  | ok {a : α} {b : β} (related : A a b) : Corresponds A (.ok a) (.ok b)
  | error (e : ε) : Corresponds A (.error e) (.error e)

namespace Corresponds

variable {ε α β α' β' : Type} {A : α → β → Prop} {B : α' → β' → Prop} {x : Except ε α} {y : Except ε β}

theorem bind {f : α → Except ε α'} {g : β → Except ε β'} (first : Corresponds A x y)
    (next : ∀ a b, A a b → Corresponds B (f a) (g b)) : Corresponds B (x >>= f) (y >>= g) := by
  cases first with
  | ok related => exact next _ _ related
  | error e => exact .error e

theorem eq {x y : Except ε α} (same : Corresponds (· = ·) x y) : x = y := by
  cases same with
  | ok related => rw [related]
  | error e => rfl

end Corresponds

/-- From related states two computations fail alike or give related results, and they leave related
states behind. -/
def Simulates {ε σ τ α β : Type} (R : σ → τ → Prop) (A : α → β → Prop) (x : ExceptT ε (StateM σ) α)
    (y : ExceptT ε (StateM τ) β) : Prop :=
  ∀ s t, R s t → Corresponds A (x s).1 (y t).1 ∧ R (x s).2 (y t).2

namespace Simulates

variable {ε σ τ α β α' β' : Type} {R : σ → τ → Prop} {A : α → β → Prop} {B : α' → β' → Prop}

theorem pure {a : α} {b : β} (related : A a b) :
    Simulates R A (Pure.pure a : ExceptT ε (StateM σ) α) (Pure.pure b) :=
  fun _ _ start => ⟨.ok related, start⟩

theorem throw (e : ε) :
    Simulates R A (throwThe ε e : ExceptT ε (StateM σ) α) (throwThe ε e : ExceptT ε (StateM τ) β) :=
  fun _ _ start => ⟨.error e, start⟩

theorem bind {x : ExceptT ε (StateM σ) α} {y : ExceptT ε (StateM τ) β}
    {f : α → ExceptT ε (StateM σ) α'} {g : β → ExceptT ε (StateM τ) β'} (first : Simulates R A x y)
    (next : ∀ a b, A a b → Simulates R B (f a) (g b)) : Simulates R B (x >>= f) (y >>= g) := by
  intro s t start
  have alike := first s t start
  rw [bind_apply, bind_apply]
  rcases ranX : x s with ⟨r, s'⟩
  rcases ranY : y t with ⟨r', t'⟩
  rw [ranX, ranY] at alike
  obtain ⟨results, states⟩ := alike
  cases results with
  | ok related => exact next _ _ related s' t' states
  | error e => exact ⟨.error e, states⟩

theorem foldlM {γ : Type} {f : α → γ → ExceptT ε (StateM σ) α} {g : β → γ → ExceptT ε (StateM τ) β}
    (step : ∀ a b c, A a b → Simulates R A (f a c) (g b c)) (cs : List γ) {a : α} {b : β}
    (related : A a b) : Simulates R A (cs.foldlM f a) (cs.foldlM g b) := by
  induction cs generalizing a b with
  | nil => exact pure related
  | cons c rest ih =>
    rw [List.foldlM_cons, List.foldlM_cons]
    exact (step a b c related).bind fun a' b' related' => ih related'

end Simulates

/-- What is replied to calls in turn, and what becomes of what is called. -/
def answers {σ C α : Type} (call : σ → C → α × σ) : σ → List C → List α × σ
  | s, [] => ([], s)
  | s, c :: rest =>
    let (a, s) := call s c
    let (more, s) := answers call s rest
    (a :: more, s)

/-- Calls in turn are answered alike if every call is, and what is called stays related. -/
theorem answers_eq {σ τ C α : Type} {call : σ → C → α × σ} {call' : τ → C → α × τ} {R : σ → τ → Prop}
    (step : ∀ s t c, R s t → (call s c).1 = (call' t c).1 ∧ R (call s c).2 (call' t c).2) {s : σ} {t : τ}
    (related : R s t) (calls : List C) :
    (answers call s calls).1 = (answers call' t calls).1 ∧
      R (answers call s calls).2 (answers call' t calls).2 := by
  induction calls generalizing s t with
  | nil => exact ⟨rfl, related⟩
  | cons c rest ih =>
    obtain ⟨first, related'⟩ := step s t c related
    obtain ⟨others, after⟩ := ih related'
    exact ⟨congrArg₂ List.cons first others, after⟩

/-- Two computations have the same effects, and results that are related: both can be read off one
computation. -/
def Alongside {m : Type → Type} [Functor m] {α β : Type} (R : α → β → Prop) (x : m α) (y : m β) : Prop :=
  ∃ both : m {ab : α × β // R ab.1 ab.2}, (fun ab => ab.1.1) <$> both = x ∧ (fun ab => ab.1.2) <$> both = y

namespace Alongside

variable {m : Type → Type} [Monad m] [LawfulMonad m] {α β α' β' : Type} {R : α → β → Prop}
  {S : α' → β' → Prop}

theorem same (x : m α) : Alongside (· = ·) x x :=
  ⟨(fun a => ⟨(a, a), rfl⟩) <$> x, by simp only [Functor.map_map, id_map'],
    by simp only [Functor.map_map, id_map']⟩

theorem pure {a : α} {b : β} (related : R a b) : Alongside R (Pure.pure a : m α) (Pure.pure b) :=
  ⟨Pure.pure ⟨(a, b), related⟩, map_pure .., map_pure ..⟩

theorem bind {x : m α} {y : m β} {f : α → m α'} {g : β → m β'} (first : Alongside R x y)
    (next : ∀ a b, R a b → Alongside S (f a) (g b)) : Alongside S (x >>= f) (y >>= g) := by
  obtain ⟨both, rfl, rfl⟩ := first
  choose behind left right using fun ab : {ab : α × β // R ab.1 ab.2} => next _ _ ab.2
  refine ⟨both >>= behind, ?_, ?_⟩
  · simp only [map_bind, left, bind_map_left]
  · simp only [map_bind, right, bind_map_left]

theorem mono {x : m α} {y : m β} {R' : α → β → Prop} (alongside : Alongside R x y)
    (weaker : ∀ a b, R a b → R' a b) : Alongside R' x y := by
  obtain ⟨both, rfl, rfl⟩ := alongside
  exact ⟨(fun ab => ⟨ab.1, weaker _ _ ab.2⟩) <$> both, by simp only [Functor.map_map],
    by simp only [Functor.map_map]⟩

/-- What both computations begin with. -/
theorem bind_same (x : m α) {f : α → m α'} {g : α → m β'} (next : ∀ a, Alongside S (f a) (g a)) :
    Alongside S (x >>= f) (x >>= g) :=
  (same x).bind fun a _ equal => equal ▸ next a

end Alongside

end ProofWalk
