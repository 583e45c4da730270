import Mathlib.Data.List.Chain
import ProofWalk.Proofs.Results
import ProofWalk.Prover.Push

/-!
# Recorded walks

A walk by local push changes its mass step by step. To speak of every moment of a run, one that fails
or is cut off included, the walk is run with a record of the mass after every push, the latest first.
What it does at a node is left to a judge, so that there is one account for all walks that go through
a graph in passes.

## Main definitions

* `Recording` — a computation that keeps a record
* `Recording.Erases` — a recorded computation does what a computation does
* `Judge`, `Recording.pass`, `Recording.tighten` — passes with a record
* `World`, `Judge.Lawful` — what a judge may ask for and which steps it takes
* `Recording.IsRecord` — the record of a walk

## Main results

* `Recording.pass_reaches`, `Recording.tighten_reaches` — each mass of a record comes from the one
  before by a step, however the run ends
-/

namespace ProofWalk

/-- A computation that keeps a record of the masses it comes to, the latest first. The record stays
when it fails. -/
abbrev Recording (σ M α : Type) := ExceptT Error (StateM (σ × List M)) α

/-- What a walk finds at a node: it leaves it alone, settles all its residual, or pushes it while the
mass exceeds a threshold and then goes on to other nodes. -/
inductive Verdict (M : Type) where
  | leave
  | settle (m : M)
  | spread (exceeds : M → Bool) (push : M → M) (onward : List Nat)

/-- What a walk asks of its graph to find out what to do at a node. -/
abbrev Judge (σ M : Type) := Nat → M → ExceptT Error (StateM σ) (Verdict M)

namespace Recording

variable {σ M α β : Type}

/-- Puts a mass on the record. -/
def note (m : M) : Recording σ M Unit := fun (s, record) => (.ok (), s, m :: record)

/-- A computation that leaves the record alone. -/
def look (x : ExceptT Error (StateM σ) α) : Recording σ M α := fun (s, record) =>
  ((x s).1, (x s).2, record)

theorem look_bind (x : ExceptT Error (StateM σ) α) (f : α → ExceptT Error (StateM σ) β) :
    (look (x >>= f) : Recording σ M β) = look x >>= fun a => look (f a) := by
  funext ⟨s, record⟩
  rw [bind_apply, look, look, bind_apply]
  rcases x s with ⟨_ | _, _⟩ <;> rfl

/-- Pushes a node while the mass exceeds a threshold, at most `limit` times. -/
def drain (exceeds : M → Bool) (push : M → M) : Nat → M → Recording σ M M
  | 0, _ => throw .walkUnfinished
  | limit + 1, m =>
    if exceeds m then do
      note (push m)
      drain exceeds push limit (push m)
    else pure m

/-- Visits nodes in turn and counts the nodes pushed. -/
def visitAll (visit : Nat → M → Recording σ M (Nat × M)) (nodes : List Nat) (before : Nat × M) :
    Recording σ M (Nat × M) :=
  nodes.foldlM (fun (pushes, m) v => do
    let (more, m) ← visit v m
    pure (pushes + more, m)) before

/-- A pass from a node at a depth. -/
def pass (judge : Judge σ M) (isTooDeep : Nat → Bool) (bound : Nat) :
    Nat → Nat → Nat → M → Recording σ M (Nat × M)
  | 0, _, _, _ => throw .walkUnfinished
  | limit + 1, depth, u, m => do
    if isTooDeep depth then return (0, m)
    match ← look (judge u m) with
    | .leave => return (0, m)
    | .settle m' => do
      note m'
      return (1, m')
    | .spread exceeds push onward => do
      let m' ← drain exceeds push bound m
      visitAll (pass judge isTooDeep bound limit (depth + 1)) onward (1, m')

/-- Passes from the roots with ever lower thresholds until one at `epsilon` pushes nothing. -/
def tighten {K : Type} [Scalar K] (judge : K → Judge σ M) (o : WalkOptions K) (bound : Nat)
    (roots : List Nat) : Nat → K → M → Recording σ M M
  | 0, _, _ => throw .walkUnfinished
  | limit + 1, threshold, m => do
    let threshold := tightened o threshold
    let (pushes, m) ← visitAll (pass (judge threshold) o.isTooDeep bound bound 1) roots (0, m)
    if threshold == o.epsilon && pushes == 0 then return m
    tighten judge o bound roots limit threshold m

/-- The record of a run from a state, with nothing on it before. -/
def record (x : Recording σ M α) (s : σ) : List M := (x (s, [])).2.2

/-! ### Without the record -/

/-- A recorded computation gives what a computation gives, and leaves the same behind. -/
def Erases (x : Recording σ M α) (y : ExceptT Error (StateM σ) α) : Prop :=
  ∀ s record, (x (s, record)).1 = (y s).1 ∧ (x (s, record)).2.1 = (y s).2

theorem erases_pure (a : α) : Erases (pure a : Recording σ M α) (pure a) := fun _ _ => ⟨rfl, rfl⟩

theorem erases_throw (e : Error) : Erases (throw e : Recording σ M α) (throw e) :=
  fun _ _ => ⟨rfl, rfl⟩

theorem erases_look (x : ExceptT Error (StateM σ) α) : Erases (look x : Recording σ M α) x :=
  fun _ _ => ⟨rfl, rfl⟩

theorem Erases.bind {x : Recording σ M α} {y : ExceptT Error (StateM σ) α}
    {f : α → Recording σ M β} {g : α → ExceptT Error (StateM σ) β} (first : Erases x y)
    (next : ∀ a, Erases (f a) (g a)) : Erases (x >>= f) (y >>= g) := by
  intro s record
  obtain ⟨result, state⟩ := first s record
  rw [bind_apply, bind_apply]
  rcases ran : x (s, record) with ⟨r, s₁, record₁⟩
  rw [ran] at result state
  rcases r with e | a
  · rw [show y s = (.error e, s₁) from Prod.ext result.symm state.symm]
    exact ⟨rfl, rfl⟩
  · rw [show y s = (.ok a, s₁) from Prod.ext result.symm state.symm]
    exact next a s₁ record₁

/-- Putting a mass on the record does nothing else. -/
theorem erases_note_bind (m : M) {x : Recording σ M α} {y : ExceptT Error (StateM σ) α}
    (next : Erases x y) : Erases (note m >>= fun _ => x) y := by
  intro s record
  exact next s (m :: record)

theorem erases_foldlM {γ : Type} {f : β → γ → Recording σ M β}
    {g : β → γ → ExceptT Error (StateM σ) β} (step : ∀ b c, Erases (f b c) (g b c)) (cs : List γ)
    (b : β) : Erases (cs.foldlM f b) (cs.foldlM g b) := by
  induction cs generalizing b with
  | nil => exact erases_pure b
  | cons c rest ih =>
    rw [List.foldlM_cons, List.foldlM_cons]
    exact (step b c).bind ih

/-- Draining with a record is draining. -/
theorem erases_drain (exceeds : M → Bool) (push : M → M) (drained : Nat → M → Option M)
    (zero : ∀ m, drained 0 m = none)
    (succ : ∀ limit m,
      drained (limit + 1) m = if exceeds m then drained limit (push m) else some m)
    (limit : Nat) (m : M) :
    Erases (drain exceeds push limit m : Recording σ M M)
      (match drained limit m with
        | none => throw .walkUnfinished
        | some m' => pure m') := by
  induction limit generalizing m with
  | zero =>
    rw [zero]
    exact erases_throw _
  | succ limit ih =>
    rw [succ, drain]
    split
    · exact erases_note_bind _ (ih (push m))
    · exact erases_pure m

/-! ### Ends -/

/-- What a recorded computation comes to, from a state and a record. -/
def Ends (x : Recording σ M α) (s : σ) (record : List M)
    (Q : Except Error α → σ → List M → Prop) : Prop :=
  Q (x (s, record)).1 (x (s, record)).2.1 (x (s, record)).2.2

theorem Ends.mono {x : Recording σ M α} {s : σ} {record : List M}
    {Q Q' : Except Error α → σ → List M → Prop} (ends : Ends x s record Q)
    (weaker : ∀ r s' record', Q r s' record' → Q' r s' record') : Ends x s record Q' :=
  weaker _ _ _ ends

theorem Ends.bind {x : Recording σ M α} {f : α → Recording σ M β} {s : σ} {record : List M}
    {P : Except Error α → σ → List M → Prop} {Q : Except Error β → σ → List M → Prop}
    (first : Ends x s record P)
    (failed : ∀ e s' record', P (.error e) s' record' → Q (.error e) s' record')
    (next : ∀ a s' record', P (.ok a) s' record' → Ends (f a) s' record' Q) :
    Ends (x >>= f) s record Q := by
  unfold Ends at first ⊢
  rw [bind_apply]
  rcases ran : x (s, record) with ⟨r, s₁, record₁⟩
  rw [ran] at first
  rcases r with e | a
  · exact failed e s₁ record₁ first
  · exact next a s₁ record₁ first

end Recording

/-! ### Steps -/

/-- How the graph under a walk may change, which nodes it has shown, and by which steps mass comes
from mass. -/
structure World (σ M : Type) where
  grows : σ → σ → Prop
  met : σ → Nat → Prop
  step : σ → M → M → Prop
  grows_refl : ∀ s, grows s s
  grows_trans : ∀ {s s' s''}, grows s s' → grows s' s'' → grows s s''
  met_mono : ∀ {s s' u}, grows s s' → met s u → met s' u
  step_mono : ∀ {s s' m m'}, grows s s' → step s m m' → step s' m m'

namespace World

variable {σ M α β : Type} (W : World σ M)

/-- Each mass of a record comes from the one before by a step. -/
def Chained (s : σ) (record : List M) : Prop :=
  record.IsChain fun later earlier => W.step s earlier later

/-- One record goes on from another by steps. -/
structure Continues (s : σ) (record : List M) (s' : σ) (record' : List M) : Prop where
  grows : W.grows s s'
  suffix : record <:+ record'
  chained : W.Chained s record → W.Chained s' record'

/-- A run goes on from a record by steps, and the mass that it gives is the latest. -/
def Reaches (s : σ) (record : List M) (mass : α → M) (r : Except Error α) (s' : σ)
    (record' : List M) : Prop :=
  W.Continues s record s' record' ∧ ∀ a, r = .ok a → record'.head? = some (mass a)

variable {W} {s s' s'' : σ} {record record' record'' earlier : List M} {m m' : M}

theorem Chained.mono (grows : W.grows s s') (chained : W.Chained s record) :
    W.Chained s' record :=
  List.IsChain.imp (fun _ _ => W.step_mono grows) chained

theorem Continues.refl (grows : W.grows s s') : W.Continues s record s' record :=
  ⟨grows, List.suffix_rfl, .mono grows⟩

theorem Continues.trans (first : W.Continues s record s' record')
    (second : W.Continues s' record' s'' record'') : W.Continues s record s'' record'' :=
  ⟨W.grows_trans first.grows second.grows, first.suffix.trans second.suffix,
    fun chained => second.chained (first.chained chained)⟩

theorem Continues.step (grows : W.grows s s') (step : W.step s' m m') :
    W.Continues s (m :: earlier) s' (m' :: m :: earlier) :=
  ⟨grows, List.suffix_cons _ _, fun chained => List.isChain_cons_cons.2 ⟨step, chained.mono grows⟩⟩

theorem Reaches.trans {mass : α → M} {r : Except Error α} (first : W.Continues s record s' record')
    (second : W.Reaches s' record' mass r s'' record'') : W.Reaches s record mass r s'' record'' :=
  ⟨first.trans second.1, second.2⟩

end World

namespace Recording

open World

variable {σ M α β : Type} {W : World σ M} {s s' : σ} {record earlier : List M} {m : M}

theorem ends_pure_reaches (grows : W.grows s s') {mass : α → M} {a : α} (latest : mass a = m) :
    Ends (pure a : Recording σ M α) s' (m :: earlier) (W.Reaches s (m :: earlier) mass) := by
  refine ⟨.refl grows, fun a' equal => ?_⟩
  cases equal
  exact congrArg some latest.symm

/-- Runs that go on from each other. -/
theorem Ends.bind_reaches {x : Recording σ M α} {f : α → Recording σ M β} {massA : α → M}
    {massB : β → M} (first : Ends x s record (W.Reaches s record massA))
    (next : ∀ a s' rest, W.grows s s' →
      Ends (f a) s' (massA a :: rest) (W.Reaches s' (massA a :: rest) massB)) :
    Ends (x >>= f) s record (W.Reaches s record massB) := by
  refine first.bind (fun e s' record' reaches => ⟨reaches.1, fun a equal => by cases equal⟩) ?_
  rintro a s' record' ⟨continues, latest⟩
  obtain ⟨rest, rfl⟩ := List.head?_eq_some_iff.1 (latest a rfl)
  exact (next a s' rest continues.grows).mono fun _ _ _ => .trans continues

end Recording

/-- What a verdict may say of a node whose mass is given: the steps that it takes are steps, and it goes
on to nodes that the graph has shown. -/
def Verdict.Sound {M : Type} (met : Nat → Prop) (step : M → M → Prop) (m : M) : Verdict M → Prop
  | leave => True
  | settle m' => step m m'
  | spread exceeds push onward =>
    exceeds m ∧ (∀ m', exceeds m' → step m' (push m')) ∧ ∀ v ∈ onward, met v

/-- What a judge may ask for and answer. -/
structure Judge.Lawful {σ M : Type} (judge : Judge σ M) (W : World σ M) : Prop where
  grows : ∀ {s u} m, W.met s u → W.grows s (judge u m s).2
  sound : ∀ {s u m v}, W.met s u → (judge u m s).1 = .ok v →
    v.Sound (W.met (judge u m s).2) (W.step (judge u m s).2) m

namespace Recording

open World

variable {σ M : Type} {W : World σ M} {judge : Judge σ M} {isTooDeep : Nat → Bool} {s : σ}
  {earlier : List M}

theorem drain_reaches {exceeds : M → Bool} {push : M → M}
    (steps : ∀ m, exceeds m → W.step s m (push m)) (limit : Nat) (m : M) :
    Ends (drain exceeds push limit m) s (m :: earlier) (W.Reaches s (m :: earlier) id) := by
  induction limit generalizing m earlier with
  | zero => exact ⟨.refl (W.grows_refl s), fun a equal => by cases equal⟩
  | succ limit ih =>
    rw [drain]
    split
    · rename_i above
      have pushed : W.Continues s (m :: earlier) s (push m :: m :: earlier) :=
        .step (W.grows_refl s) (steps m above)
      have rest : Ends (drain exceeds push limit (push m)) s (push m :: m :: earlier) _ := ih (push m)
      exact rest.mono fun _ _ _ => .trans pushed
    · exact ends_pure_reaches (W.grows_refl s) rfl

theorem visitAll_reaches {visit : Nat → M → Recording σ M (Nat × M)} {nodes : List Nat}
    (each : ∀ {s earlier m}, ∀ v ∈ nodes, W.met s v →
      Ends (visit v m) s (m :: earlier) (W.Reaches s (m :: earlier) Prod.snd))
    (met : ∀ v ∈ nodes, W.met s v) (before : Nat × M) :
    Ends (visitAll visit nodes before) s (before.2 :: earlier)
      (W.Reaches s (before.2 :: earlier) Prod.snd) := by
  unfold visitAll
  induction nodes generalizing s before earlier with
  | nil => exact ends_pure_reaches (W.grows_refl s) rfl
  | cons v rest ih =>
    rw [List.foldlM_cons]
    have here : Ends (do
        let (more, m) ← visit v before.2
        pure (before.1 + more, m)) s (before.2 :: earlier)
        (W.Reaches s (before.2 :: earlier) Prod.snd) :=
      (each v (by simp) (met v (by simp))).bind_reaches fun result s' rest _ =>
        ends_pure_reaches (W.grows_refl s') rfl
    refine here.bind_reaches fun between s' rest grows => ih (fun v member => ?_) (fun v member => ?_) _
    · exact each v (List.mem_cons_of_mem _ member)
    · exact W.met_mono grows (met v (List.mem_cons_of_mem _ member))

/-- A pass goes on from a record by steps, however it ends. -/
theorem pass_reaches (lawful : judge.Lawful W) (bound limit depth : Nat) {u : Nat} (met : W.met s u)
    (m : M) :
    Ends (pass judge isTooDeep bound limit depth u m) s (m :: earlier)
      (W.Reaches s (m :: earlier) Prod.snd) := by
  induction limit generalizing s depth u m earlier with
  | zero => exact ⟨.refl (W.grows_refl s), fun a equal => by cases equal⟩
  | succ limit ih =>
    unfold pass
    split
    · exact ends_pure_reaches (W.grows_refl s) rfl
    have grows := lawful.grows m met
    -- the verdict, and what comes after it
    refine Ends.bind (P := fun r s' record => r = (judge u m s).1 ∧ s' = (judge u m s).2 ∧
      record = m :: earlier) ⟨rfl, rfl, rfl⟩ ?_ ?_
    · rintro e s' record ⟨-, rfl, rfl⟩
      exact ⟨.refl grows, fun a equal => by cases equal⟩
    rintro verdict s' record ⟨given, rfl, rfl⟩
    have sound := lawful.sound met given.symm
    cases verdict with
    | leave => exact ends_pure_reaches grows rfl
    | settle m' =>
      refine ⟨.step grows sound, fun a equal => ?_⟩
      cases equal
      rfl
    | spread exceeds push onward =>
      obtain ⟨-, steps, shown⟩ := sound
      refine Ends.mono ?_ fun _ _ _ => .trans (.refl grows)
      refine (drain_reaches steps bound m).bind_reaches fun m' s' rest grows' => ?_
      refine visitAll_reaches (fun v _ met => ih (depth + 1) met _) (fun v member => ?_) (1, m')
      exact W.met_mono grows' (shown v member)

variable {K : Type} [Scalar K] {judges : K → Judge σ M} {o : WalkOptions K}

/-- So do passes with ever lower thresholds. -/
theorem tighten_reaches (lawful : ∀ threshold, (judges (tightened o threshold)).Lawful W) (bound : Nat)
    {roots : List Nat} (met : ∀ u ∈ roots, W.met s u) (limit : Nat) (threshold : K) (m : M) :
    Ends (tighten judges o bound roots limit threshold m) s (m :: earlier)
      (W.Reaches s (m :: earlier) id) := by
  induction limit generalizing s threshold m earlier with
  | zero => exact ⟨.refl (W.grows_refl s), fun a equal => by cases equal⟩
  | succ limit ih =>
    rw [tighten]
    have passes : Ends
        (visitAll (pass (judges (tightened o threshold)) o.isTooDeep bound bound 1) roots (0, m)) s
        (m :: earlier) (W.Reaches s (m :: earlier) Prod.snd) :=
      visitAll_reaches (fun v _ met => pass_reaches (lawful threshold) bound bound 1 met _) met (0, m)
    refine passes.bind_reaches fun result s' rest grows => ?_
    obtain ⟨pushes, m'⟩ := result
    simp only
    split
    · exact ends_pure_reaches (W.grows_refl s') rfl
    · exact ih (fun u member => W.met_mono grows (met u member)) _ m'

/-! ### Records of whole walks -/

/-- A recorded walk does what the walk does. Its record begins with the mass that the walk starts with
and ends with the one that it gives, if it gives one; in between, each mass comes from the one before by
a step. -/
structure IsRecord (W : World σ M) (seed : M) (recorded : Recording σ M M)
    (walk : ExceptT Error (StateM σ) M) (s : σ) : Prop where
  result : (recorded (s, [])).1 = (walk s).1
  state : (recorded (s, [])).2.1 = (walk s).2
  first : (recorded.record s).getLast? = some seed
  latest : ∀ m, (walk s).1 = .ok m → (recorded.record s).head? = some m
  chained : W.Chained (walk s).2 (recorded.record s)

/-- A walk with a record that starts with a mass on it. -/
theorem isRecord_of_reaches {seed : M} {recorded : Recording σ M M}
    {walk : ExceptT Error (StateM σ) M} (erases : recorded.Erases walk)
    (reaches : Ends recorded s [] fun r s' record =>
      W.Reaches s [seed] id r s' record) : IsRecord W seed recorded walk s := by
  obtain ⟨result, state⟩ := erases s []
  obtain ⟨continues, latest⟩ := reaches
  refine ⟨result, state, ?_, fun m done => latest m (result.trans done), ?_⟩
  · exact (List.getLast?_eq_some_iff.2 ⟨_, continues.suffix.choose_spec.symm⟩)
  · rw [← state]
    exact continues.chained (List.isChain_singleton seed)

/-- What holds of the mass that a walk starts with, and goes on to hold with every step, holds of every
mass of a record together with those before it. -/
theorem IsRecord.throughout {seed : M} {recorded : Recording σ M M}
    {walk : ExceptT Error (StateM σ) M} (isRecord : IsRecord W seed recorded walk s)
    {P : M → List M → Prop} (start : P seed [])
    (step : ∀ {m m' earlier}, W.step (walk s).2 m m' → P m earlier → P m' (m :: earlier)) :
    ∀ m earlier, m :: earlier <:+ recorded.record s → P m earlier := by
  obtain ⟨-, -, first, -, chained⟩ := isRecord
  generalize recorded.record s = record at first chained
  induction record with
  | nil => cases first
  | cons latest past ih =>
    cases past with
    | nil =>
      obtain rfl : latest = seed := Option.some.inj first
      intro m earlier before
      obtain same | before := List.suffix_cons_iff.1 before
      · cases same
        exact start
      · cases List.suffix_nil.1 before
    | cons m' rest =>
      obtain ⟨pushed, chained⟩ := List.isChain_cons_cons.1 chained
      have before := ih ((List.getLast?_cons_cons ..).symm.trans first) chained
      intro m earlier suffix
      obtain same | suffix := List.suffix_cons_iff.1 suffix
      · cases same
        exact step pushed (before m' rest List.suffix_rfl)
      · exact before m earlier suffix

/-- What a walk starts with and every step preserves holds of every mass of a record. -/
theorem IsRecord.always {seed : M} {recorded : Recording σ M M}
    {walk : ExceptT Error (StateM σ) M} (isRecord : IsRecord W seed recorded walk s)
    {P : M → Prop} (start : P seed) (step : ∀ {m m'}, W.step (walk s).2 m m' → P m → P m') :
    ∀ m ∈ recorded.record s, P m := by
  intro m member
  obtain ⟨later, earlier, split⟩ := List.append_of_mem member
  exact isRecord.throughout (P := fun m _ => P m) start step m earlier ⟨later, split.symm⟩

end Recording

end ProofWalk
