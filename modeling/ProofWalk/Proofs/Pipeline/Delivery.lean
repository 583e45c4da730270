import Mathlib.Data.List.Perm.Basic
import Mathlib.Data.List.Pairwise
import ProofWalk.Pipeline.Basic

/-!
# Results in any order

The producer of a pipeline hands out tasks and takes results, in whatever order these arrive. What
becomes of the results is the same for all orders if the order of the tasks is kept, and otherwise
depends on the order of the results alone: the outputs that are due go to the sink one by one, up to
the first that it does not take. That the program runs one task after the other is therefore one
schedule among all of them.

## Main definitions

* `Sink.serve` — outputs that are handed to a sink until it fails
* `Delivery.Event` — a task is handed out, or a result arrives
* `Delivery.IsSchedule` — each of the tasks is handed out and its result arrives

## Main results

* `Delivery.handed_play` — what a schedule has handed on, and to whom
* `Pipeline.delivers_in_any_order` — what the sink is given and what a run says in the end
-/

namespace ProofWalk

variable {O σ : Type}

/-! ### Outputs that are due -/

namespace Outcome

def isOutput : Outcome O → Bool
  | output _ => true
  | _ => false

def isSkipped : Outcome O → Bool
  | skipped => true
  | _ => false

def isFailed : Outcome O → Bool
  | failed => true
  | _ => false

/-- The output of a task, with the number of the task. -/
def numbered (task : Nat) : Outcome O → Option (Nat × O)
  | output o => some (task, o)
  | _ => none

/-- The outputs among the outcomes of tasks. -/
def outputs (outcome : Nat → Outcome O) (tasks : List Nat) : List (Nat × O) :=
  tasks.filterMap fun task => (outcome task).numbered task

theorem eq_of_numbered {task : Nat} {out : Outcome O} {call : Nat × O}
    (isCall : out.numbered task = some call) : call.1 = task := by
  cases out with
  | output o =>
    cases isCall
    rfl
  | skipped => cases isCall
  | failed => cases isCall

variable {outcome : Nat → Outcome O} {tasks : List Nat}

theorem outputs_cons (task : Nat) :
    outputs outcome (task :: tasks) =
      match (outcome task).numbered task with
      | none => outputs outcome tasks
      | some call => call :: outputs outcome tasks := by
  rw [outputs, List.filterMap_cons]
  cases (outcome task).numbered task <;> rfl

/-- Tasks in order have outputs in order. -/
theorem pairwise_outputs (inOrder : tasks.Pairwise (· < ·)) :
    (outputs outcome tasks).Pairwise (·.1 < ·.1) := by
  apply List.Pairwise.filterMap _ _ inOrder
  intro task later less call isCall call' isLater
  rw [eq_of_numbered isCall, eq_of_numbered isLater]
  exact less

/-- Every task has one of three outcomes. -/
theorem countP_add_countP_add_countP (tasks : List Nat) :
    (tasks.countP fun t => (outcome t).isOutput) + (tasks.countP fun t => (outcome t).isSkipped) +
      (tasks.countP fun t => (outcome t).isFailed) = tasks.length := by
  induction tasks with
  | nil => rfl
  | cons task tasks ih =>
    have one : (if (outcome task).isOutput then 1 else 0) + (if (outcome task).isSkipped then 1 else 0) +
        (if (outcome task).isFailed then 1 else 0) = 1 := by
      cases outcome task <;> rfl
    rw [List.countP_cons, List.countP_cons, List.countP_cons, List.length_cons]
    omega

end Outcome

/-! ### Sinks -/

/-- What became of the outputs for a sink: the calls that were made, the last of which may have failed. -/
structure Served (O σ : Type) where
  calls : List (Nat × O)
  sink : σ
  failure : Option Error

namespace Sink

/-- Outputs are handed to a sink one by one until it fails. -/
def serve (sink : Sink O σ) (s : σ) : List (Nat × O) → Served O σ
  | [] => { calls := [], sink := s, failure := none }
  | (task, o) :: rest =>
    match sink task o s with
    | (.ok (), s) =>
      let served := serve sink s rest
      { served with calls := (task, o) :: served.calls }
    | (.error e, s) => { calls := [(task, o)], sink := s, failure := some e }

/-- The sink that also writes down its calls. -/
def logged (sink : Sink O σ) : Sink O (List (Nat × O) × σ) := fun task o (log, s) =>
  let (r, s) := sink task o s
  (r, (log ++ [(task, o)], s))

variable {sink : Sink O σ} {task : Nat} {o : O} {s s' : σ} {rest : List (Nat × O)}

theorem serve_cons_of_ok (taken : sink task o s = (.ok (), s')) :
    sink.serve s ((task, o) :: rest) =
      { sink.serve s' rest with calls := (task, o) :: (sink.serve s' rest).calls } := by
  rw [serve, taken]

theorem serve_cons_of_error {e : Error} (fails : sink task o s = (.error e, s')) :
    sink.serve s ((task, o) :: rest) = { calls := [(task, o)], sink := s', failure := some e } := by
  rw [serve, fails]

theorem logged_eq {r : Except Error Unit} (answers : sink task o s = (r, s')) (log : List (Nat × O)) :
    sink.logged task o (log, s) = (r, (log ++ [(task, o)], s')) := by
  simp only [logged, answers]

/-- No call is made beyond those that are due, and all are made if none fails. -/
theorem serve_calls (sink : Sink O σ) (s : σ) (due : List (Nat × O)) :
    (sink.serve s due).calls <+: due ∧
      ((sink.serve s due).failure = none → (sink.serve s due).calls = due) := by
  induction due generalizing s with
  | nil => exact ⟨List.prefix_refl _, fun _ => rfl⟩
  | cons call rest ih =>
    obtain ⟨task, o⟩ := call
    rcases answers : sink task o s with ⟨e | _, s'⟩
    · rw [serve_cons_of_error answers]
      exact ⟨⟨rest, rfl⟩, nofun⟩
    · obtain ⟨isPrefix, all⟩ := ih s'
      rw [serve_cons_of_ok answers]
      exact ⟨List.cons_prefix_cons.2 ⟨rfl, isPrefix⟩, fun ended => congrArg _ (all ended)⟩

/-- A sink that takes whatever it is given does not fail. -/
theorem serve_failure (takes : ∀ task o s, (sink task o s).1 = .ok ()) (s : σ) (due : List (Nat × O)) :
    (sink.serve s due).failure = none := by
  induction due generalizing s with
  | nil => rfl
  | cons call rest ih =>
    rw [serve_cons_of_ok (Prod.ext (takes call.1 call.2 s) rfl)]
    exact ih _

/-- Writing down the calls changes nothing else. -/
theorem serve_logged (sink : Sink O σ) (log : List (Nat × O)) (s : σ) (due : List (Nat × O)) :
    (sink.logged.serve (log, s) due).sink =
        (log ++ (sink.serve s due).calls, (sink.serve s due).sink) ∧
      (sink.logged.serve (log, s) due).failure = (sink.serve s due).failure := by
  induction due generalizing log s with
  | nil => simp [serve]
  | cons call rest ih =>
    obtain ⟨task, o⟩ := call
    rcases answers : sink task o s with ⟨e | _, s'⟩
    · rw [serve_cons_of_error answers, serve_cons_of_error (logged_eq answers log)]
      exact ⟨rfl, rfl⟩
    · obtain ⟨same, fails⟩ := ih (log ++ [(task, o)]) s'
      rw [serve_cons_of_ok answers, serve_cons_of_ok (logged_eq answers log)]
      exact ⟨by simpa using same, fails⟩

end Sink

namespace Delivery

variable {sink : Sink O σ} {d : Delivery O σ} {outcome : Nat → Outcome O}

/-! ### Results that are handed on -/

/-- What has been handed on, without what still waits and how many tasks there are. -/
def handed (d : Delivery O σ) : Delivery O σ :=
  { start d.sink with counts := { d.counts with submitted := 0 }, failure := d.failure }

theorem emit_of_failure (failed : d.failure.isSome) (task : Nat) (o : O) :
    emit sink d task (.output o) = d := by
  rw [emit, if_pos failed]

theorem emit_of_ok (sound : d.failure = none) {task : Nat} {o : O} {s : σ}
    (taken : sink task o d.sink = (.ok (), s)) :
    emit sink d task (.output o) =
      { d with sink := s, counts := { d.counts with emitted := d.counts.emitted + 1 } } := by
  rw [emit, if_neg (by simp [sound]), taken]

theorem emit_of_error (sound : d.failure = none) {task : Nat} {o : O} {s : σ} {e : Error}
    (fails : sink task o d.sink = (.error e, s)) :
    emit sink d task (.output o) = { d with sink := s, failure := some e } := by
  rw [emit, if_neg (by simp [sound]), fails]

/-- Handing on changes nothing of what waits, and does not look at it. -/
theorem emit_keeps (task : Nat) (out : Outcome O) :
    (emit sink d task out).handed = emit sink d.handed task out ∧
      (emit sink d task out).waiting = d.waiting ∧ (emit sink d task out).next = d.next ∧
      (emit sink d task out).counts.submitted = d.counts.submitted := by
  cases out with
  | skipped => exact ⟨rfl, rfl, rfl, rfl⟩
  | failed => exact ⟨rfl, rfl, rfl, rfl⟩
  | output o =>
    cases failure : d.failure with
    | some e =>
      have failed : d.failure.isSome := by simp [failure]
      rw [emit_of_failure failed, emit_of_failure (d := d.handed) failed]
      exact ⟨rfl, rfl, rfl, rfl⟩
    | none =>
      rcases answers : sink task o d.sink with ⟨e | _, s⟩
      · rw [emit_of_error failure answers, emit_of_error (d := d.handed) failure answers]
        exact ⟨rfl, rfl, rfl, rfl⟩
      · rw [emit_of_ok failure answers, emit_of_ok (d := d.handed) failure answers]
        exact ⟨rfl, rfl, rfl, rfl⟩

/-- Hands on the results of tasks, one after the other. -/
def emitAll (sink : Sink O σ) (outcome : Nat → Outcome O) (d : Delivery O σ) (tasks : List Nat) :
    Delivery O σ :=
  tasks.foldl (fun d task => emit sink d task (outcome task)) d

@[simp]
theorem emitAll_nil : emitAll sink outcome d [] = d := rfl

@[simp]
theorem emitAll_cons (task : Nat) (tasks : List Nat) :
    emitAll sink outcome d (task :: tasks) = emitAll sink outcome (emit sink d task (outcome task)) tasks :=
  rfl

theorem emitAll_append (tasks later : List Nat) :
    emitAll sink outcome d (tasks ++ later) = emitAll sink outcome (emitAll sink outcome d tasks) later :=
  List.foldl_append

/-- Tasks without an output are counted, whatever the sink does. -/
theorem counts_emitAll (sink : Sink O σ) (outcome : Nat → Outcome O) (d : Delivery O σ)
    (tasks : List Nat) :
    (emitAll sink outcome d tasks).counts.skipped =
        d.counts.skipped + tasks.countP (fun t => (outcome t).isSkipped) ∧
      (emitAll sink outcome d tasks).counts.failed =
        d.counts.failed + tasks.countP (fun t => (outcome t).isFailed) := by
  induction tasks generalizing d with
  | nil => exact ⟨rfl, rfl⟩
  | cons task tasks ih =>
    have one : (emit sink d task (outcome task)).counts.skipped =
          d.counts.skipped + (if (outcome task).isSkipped then 1 else 0) ∧
        (emit sink d task (outcome task)).counts.failed =
          d.counts.failed + (if (outcome task).isFailed then 1 else 0) := by
      cases outcome task with
      | skipped => exact ⟨rfl, rfl⟩
      | failed => exact ⟨rfl, rfl⟩
      | output o =>
        cases failure : d.failure with
        | some e =>
          rw [emit_of_failure (by simp [failure])]
          exact ⟨rfl, rfl⟩
        | none =>
          rcases answers : sink task o d.sink with ⟨e | _, s⟩
          · rw [emit_of_error failure answers]
            exact ⟨rfl, rfl⟩
          · rw [emit_of_ok failure answers]
            exact ⟨rfl, rfl⟩
    obtain ⟨skipped, failed⟩ := ih (emit sink d task (outcome task))
    rw [emitAll_cons, skipped, failed, one.1, one.2, List.countP_cons, List.countP_cons]
    omega

/-- A sink that has failed is left alone. -/
theorem emitAll_of_failure (sink : Sink O σ) (outcome : Nat → Outcome O) {e : Error}
    (failed : d.failure = some e) (tasks : List Nat) :
    (emitAll sink outcome d tasks).sink = d.sink ∧ (emitAll sink outcome d tasks).failure = some e := by
  induction tasks generalizing d with
  | nil => exact ⟨rfl, failed⟩
  | cons task tasks ih =>
    rw [emitAll_cons]
    have same : (emit sink d task (outcome task)).sink = d.sink ∧
        (emit sink d task (outcome task)).failure = some e := by
      cases outcome task with
      | skipped => exact ⟨rfl, failed⟩
      | failed => exact ⟨rfl, failed⟩
      | output o =>
        rw [emit_of_failure (by simp [failed])]
        exact ⟨rfl, failed⟩
    rw [← same.1]
    exact ih same.2

/-- The outputs of tasks go to the sink until it fails, and are counted if it does not. -/
theorem emitAll_serves (sink : Sink O σ) (outcome : Nat → Outcome O) (sound : d.failure = none)
    (tasks : List Nat) :
    (emitAll sink outcome d tasks).sink = (sink.serve d.sink (Outcome.outputs outcome tasks)).sink ∧
      (emitAll sink outcome d tasks).failure =
        (sink.serve d.sink (Outcome.outputs outcome tasks)).failure ∧
      ((emitAll sink outcome d tasks).failure = none →
        (emitAll sink outcome d tasks).counts.emitted =
          d.counts.emitted + tasks.countP fun t => (outcome t).isOutput) := by
  induction tasks generalizing d with
  | nil => exact ⟨rfl, sound, fun _ => rfl⟩
  | cons task tasks ih =>
    rw [emitAll_cons, List.countP_cons, Outcome.outputs_cons]
    cases outcome task with
    | skipped => exact ih sound
    | failed => exact ih sound
    | output o =>
      rcases answers : sink task o d.sink with ⟨e | _, s⟩
      · obtain ⟨same, stays⟩ := emitAll_of_failure sink outcome
          (d := { d with sink := s, failure := some e }) rfl tasks
        rw [emit_of_error sound answers]
        change _ = (sink.serve d.sink ((task, o) :: Outcome.outputs outcome tasks)).sink ∧
          _ = (sink.serve d.sink ((task, o) :: Outcome.outputs outcome tasks)).failure ∧ _
        rw [Sink.serve_cons_of_error answers]
        exact ⟨same, stays, fun ended => by simp [stays] at ended⟩
      · obtain ⟨same, fails, counts⟩ := ih (d := { d with
            sink := s, counts := { d.counts with emitted := d.counts.emitted + 1 } }) sound
        rw [emit_of_ok sound answers]
        change _ = (sink.serve d.sink ((task, o) :: Outcome.outputs outcome tasks)).sink ∧
          _ = (sink.serve d.sink ((task, o) :: Outcome.outputs outcome tasks)).failure ∧ _
        rw [Sink.serve_cons_of_ok answers]
        refine ⟨same, fails, fun ended => ?_⟩
        rw [counts ended]
        simp only [Outcome.isOutput, if_true]
        omega

/-! ### Schedules -/

/-- The producer hands out a task, or takes the result of one. -/
inductive Event where
  | submit
  | arrive (task : Nat)
deriving Repr, DecidableEq

namespace Event

/-- The tasks whose results arrive, in the order of arrival. -/
def arrivals (events : List Event) : List Nat :=
  events.filterMap fun
    | submit => none
    | arrive task => some task

/-- Tasks in turn, where each has its result before the next is handed out. -/
def inTurn (task : Nat) : Nat → List Event
  | 0 => []
  | n + 1 => submit :: arrive task :: inTurn (task + 1) n

end Event

/-- A number of tasks are handed out, and the result of each arrives once. Nothing is said about the
order: a result may be taken at any time, also long after results of later tasks. -/
structure IsSchedule (n : Nat) (events : List Event) : Prop where
  submitted : events.count .submit = n
  arrived : (Event.arrivals events).Perm (List.range' 1 n)

open Event

theorem isSchedule_inTurn (n : Nat) : IsSchedule n (inTurn 1 n) := by
  suffices ∀ task, (inTurn task n).count .submit = n ∧ arrivals (inTurn task n) = List.range' task n from
    ⟨(this 1).1, .of_eq (this 1).2⟩
  induction n with
  | zero => exact fun task => ⟨rfl, rfl⟩
  | succ n ih =>
    intro task
    refine ⟨?_, ?_⟩
    · rw [inTurn, List.count_cons, List.count_cons, (ih (task + 1)).1]
      rfl
    · rw [List.range'_succ, ← (ih (task + 1)).2]
      rfl

/-- What an event does. -/
def step (inOrder : Bool) (sink : Sink O σ) (outcome : Nat → Outcome O) (d : Delivery O σ) :
    Event → Delivery O σ
  | .submit => d.submit
  | .arrive task => d.arrive inOrder sink task (outcome task)

/-- What a list of events does. -/
def play (inOrder : Bool) (sink : Sink O σ) (outcome : Nat → Outcome O) (d : Delivery O σ)
    (events : List Event) : Delivery O σ :=
  events.foldl (step inOrder sink outcome) d

/-- What a run says in the end. -/
def result (d : Delivery O σ) : Except Error TaskCounts :=
  match d.failure with
  | some e => .error e
  | none => .ok d.counts

/-! ### Results that wait -/

/-- Of the results that have arrived, those before the next task in order have been handed on and the
others wait. -/
structure Waits (outcome : Nat → Outcome O) (arrived : List Nat) (d : Delivery O σ) : Prop where
  next_pos : 0 < d.next
  before : ∀ task, 0 < task → task < d.next → task ∈ arrived
  waiting : ∀ task, d.waiting.lookup task =
    if d.next ≤ task ∧ task ∈ arrived then some (outcome task) else none

theorem lookup_filter_ne {α : Type} (entries : List (Nat × α)) (task other : Nat) :
    (entries.filter fun w => w.1 != task).lookup other =
      if other = task then none else entries.lookup other := by
  induction entries with
  | nil => simp
  | cons entry entries ih =>
    obtain ⟨number, a⟩ := entry
    by_cases isTask : number = task
    · subst isTask
      rw [List.filter_cons_of_neg (by simp), ih]
      split
      · rfl
      · rename_i differs
        rw [List.lookup_cons, beq_false_of_ne differs]
    · rw [List.filter_cons_of_pos (by simpa using isTask), List.lookup_cons, List.lookup_cons, ih]
      by_cases isOther : other = number
      · subst isOther
        simp [isTask]
      · rw [beq_false_of_ne isOther]

theorem length_filter_lt_of_lookup {α : Type} {entries : List (Nat × α)} {task : Nat} {a : α}
    (found : entries.lookup task = some a) :
    (entries.filter fun w => w.1 != task).length < entries.length := by
  obtain ⟨front, back, isEntry, -⟩ := List.lookup_eq_some_iff.1 found
  apply List.length_filter_lt_length_iff_exists.2
  exact ⟨(task, a), by rw [isEntry]; simp, by simp⟩

/-- Releasing hands on the results that have arrived from the next task on, without a gap. -/
theorem release_spec (sink : Sink O σ) {arrived : List Nat} (limit : Nat)
    (enough : d.waiting.length ≤ limit) (waits : d.Waits outcome arrived) :
    (release sink limit d).Waits outcome arrived ∧ (release sink limit d).next ∉ arrived ∧
      (release sink limit d).counts.submitted = d.counts.submitted ∧
      ∃ released, (release sink limit d).next = d.next + released ∧
        (release sink limit d).handed =
          emitAll sink outcome d.handed (List.range' d.next released) := by
  have missing (none : d.waiting.lookup d.next = none) : d.next ∉ arrived := by
    intro member
    rw [waits.waiting, if_pos ⟨Nat.le_refl _, member⟩] at none
    cases none
  induction limit generalizing d with
  | zero =>
    have empty : d.waiting = [] := List.eq_nil_of_length_eq_zero (by omega)
    exact ⟨waits, missing (by rw [empty]; rfl), rfl, 0, rfl, rfl⟩
  | succ limit ih =>
    unfold release
    split
    · rename_i none
      exact ⟨waits, missing none, rfl, 0, rfl, rfl⟩
    · rename_i out found
      have isOutcome : out = outcome d.next ∧ d.next ∈ arrived := by
        rw [waits.waiting] at found
        split at found
        · rename_i there
          exact ⟨(Option.some.inj found).symm, there.2⟩
        · cases found
      obtain ⟨rfl, member⟩ := isOutcome
      set rest : Delivery O σ :=
        { d with waiting := d.waiting.filter fun w => w.1 != d.next, next := d.next + 1 } with isRest
      have shorter := length_filter_lt_of_lookup found
      -- the next result has been taken from those that wait
      have stillWaits : (emit sink rest d.next (outcome d.next)).Waits outcome arrived := by
        refine ⟨?_, ?_, ?_⟩
        · rw [(emit_keeps _ _).2.2.1]
          exact Nat.succ_pos _
        · intro task pos less
          rw [(emit_keeps _ _).2.2.1] at less
          rcases Nat.lt_succ_iff_lt_or_eq.1 less with less | rfl
          · exact waits.before task pos less
          · exact member
        · intro task
          rw [(emit_keeps _ _).2.1, (emit_keeps _ _).2.2.1, isRest, lookup_filter_ne, waits.waiting]
          by_cases isNext : task = d.next
          · rw [if_pos isNext, if_neg fun there => absurd there.1 (by simp only; omega)]
          · have same : (d.next + 1 ≤ task ∧ task ∈ arrived) ↔ d.next ≤ task ∧ task ∈ arrived := by
              constructor <;> rintro ⟨bound, there⟩ <;> exact ⟨by omega, there⟩
            simp only [if_neg isNext, same]
      obtain ⟨after, gap, submitted, released, next, handed⟩ := ih
        (by rw [(emit_keeps _ _).2.1, isRest]; simp only; omega) stillWaits
        (fun none => by
          intro there
          rw [stillWaits.waiting, if_pos ⟨Nat.le_refl _, there⟩] at none
          cases none)
      refine ⟨after, gap, ?_, released + 1, ?_, ?_⟩
      · rw [submitted, (emit_keeps _ _).2.2.2]
      · rw [next, (emit_keeps _ _).2.2.1, isRest]
        simp only
        omega
      · rw [handed, (emit_keeps _ _).1, (emit_keeps _ _).2.2.1, List.range'_succ, emitAll_cons]
        rfl

/-- All results that have arrived have been handed on, except those behind a gap. -/
structure Ordered (sink : Sink O σ) (outcome : Nat → Outcome O) (s : σ) (arrived : List Nat)
    (d : Delivery O σ) : Prop where
  waits : d.Waits outcome arrived
  gap : d.next ∉ arrived
  handed : d.handed = emitAll sink outcome (start s) (List.range' 1 (d.next - 1))

theorem ordered_start (sink : Sink O σ) (outcome : Nat → Outcome O) (s : σ) :
    Ordered sink outcome s [] (start s) where
  waits := ⟨Nat.one_pos, fun task pos less => absurd less (by simp only [start]; omega), fun task => by
    simp [start]⟩
  gap := List.not_mem_nil
  handed := rfl

theorem Ordered.arrive {s : σ} {arrived : List Nat} (ordered : d.Ordered sink outcome s arrived)
    {task : Nat} (pos : 0 < task) (isNew : task ∉ arrived) :
    (d.arrive true sink task (outcome task)).Ordered sink outcome s (task :: arrived) := by
  have later : d.next ≤ task := by
    by_contra earlier
    exact isNew (ordered.waits.before task pos (by omega))
  have waits : ({ d with waiting := (task, outcome task) :: d.waiting } : Delivery O σ).Waits outcome
      (task :: arrived) := by
    refine ⟨ordered.waits.next_pos, ?_, ?_⟩
    · intro other otherPos less
      exact List.mem_cons_of_mem _ (ordered.waits.before other otherPos less)
    · intro other
      rw [List.lookup_cons]
      by_cases isTask : other = task
      · subst isTask
        simp [later]
      · rw [beq_false_of_ne isTask]
        simp only [List.mem_cons, isTask, false_or]
        exact ordered.waits.waiting other
  obtain ⟨after, gap, -, released, next, handed⟩ := release_spec sink _ (Nat.le_refl _) waits
  refine ⟨after, gap, ?_⟩
  have begins := ordered.handed
  have pos := ordered.waits.next_pos
  change (release sink _ _).handed = emitAll sink outcome d.handed (List.range' d.next released) at handed
  change _ = emitAll _ _ _ (List.range' 1 ((release sink _ _).next - 1))
  change (release sink _ _).next = d.next + released at next
  rw [next, show d.next + released - 1 = (d.next - 1) + released by omega, ← List.range'_append_1]
  rw [emitAll_append, ← begins, show 1 + (d.next - 1) = d.next by omega]
  exact handed

theorem Ordered.submit {s : σ} {arrived : List Nat} (ordered : d.Ordered sink outcome s arrived) :
    d.submit.Ordered sink outcome s arrived :=
  ⟨⟨ordered.waits.next_pos, ordered.waits.before, ordered.waits.waiting⟩, ordered.gap, ordered.handed⟩

/-! ### Runs -/

@[simp]
theorem play_append (inOrder : Bool) (first second : List Event) :
    play inOrder sink outcome d (first ++ second) =
      play inOrder sink outcome (play inOrder sink outcome d first) second :=
  List.foldl_append

theorem submitted_arrive (inOrder : Bool) (task : Nat) (out : Outcome O) :
    (d.arrive inOrder sink task out).counts.submitted = d.counts.submitted := by
  have keeps (limit : Nat) (d : Delivery O σ) :
      (release sink limit d).counts.submitted = d.counts.submitted := by
    induction limit generalizing d with
    | zero => rfl
    | succ limit ih =>
      unfold release
      split
      · rfl
      · rw [ih, (emit_keeps _ _).2.2.2]
  unfold arrive
  split
  · rw [keeps]
  · rw [(emit_keeps _ _).2.2.2]

theorem submitted_play (inOrder : Bool) (events : List Event) :
    (play inOrder sink outcome d events).counts.submitted = d.counts.submitted + events.count .submit := by
  induction events generalizing d with
  | nil => rfl
  | cons event events ih =>
    rw [play, List.foldl_cons, ← play, ih]
    cases event with
    | submit =>
      rw [List.count_cons_self]
      simp only [step, submit]
      omega
    | arrive task =>
      rw [List.count_cons_of_ne (by simp), step, submitted_arrive]

/-- If the order of the tasks does not matter, results are handed on as they arrive. -/
theorem handed_play_false (events : List Event) :
    (play false sink outcome d events).handed = emitAll sink outcome d.handed (arrivals events) := by
  induction events generalizing d with
  | nil => rfl
  | cons event events ih =>
    rw [play, List.foldl_cons, ← play, ih]
    cases event with
    | submit => rfl
    | arrive task =>
      rw [step, arrive, if_neg (by simp), (emit_keeps _ _).1]
      rfl

/-- If the order of the tasks is kept, results before the first gap have been handed on in that order. -/
theorem ordered_play {s : σ} {arrived : List Nat} (ordered : d.Ordered sink outcome s arrived)
    {events : List Event} (pos : ∀ task ∈ arrivals events, 0 < task)
    (once : (arrivals events).Nodup) (new : ∀ task ∈ arrivals events, task ∉ arrived) :
    (play true sink outcome d events).Ordered sink outcome s ((arrivals events).reverse ++ arrived) := by
  induction events generalizing d arrived with
  | nil => exact ordered
  | cons event events ih =>
    rw [play, List.foldl_cons, ← play]
    cases event with
    | submit => exact ih ordered.submit pos once new
    | arrive task =>
      change (task :: arrivals events).Nodup at once
      rw [List.nodup_cons] at once
      have after := ordered.arrive (pos task (List.mem_cons_self ..)) (new task (List.mem_cons_self ..))
      have rest := ih after (fun other member => pos other (List.mem_cons_of_mem _ member)) once.2 (by
        intro other member isOld
        rcases List.mem_cons.1 isOld with rfl | isOld
        · exact once.1 member
        · exact new other (List.mem_cons_of_mem _ member) isOld)
      have same : (arrivals (.arrive task :: events)).reverse ++ arrived =
          (arrivals events).reverse ++ task :: arrived := by
        simp [arrivals]
      rw [same]
      exact rest

/-- The tasks in the order in which their results are handed on. -/
def dueTasks (inOrder : Bool) (n : Nat) (events : List Event) : List Nat :=
  if inOrder then List.range' 1 n else arrivals events

/-- In the end of a schedule all results have been handed on. -/
theorem handed_play (inOrder : Bool) (sink : Sink O σ) (outcome : Nat → Outcome O) (s : σ) {n : Nat}
    {events : List Event} (schedule : IsSchedule n events) :
    (play inOrder sink outcome (start s) events).handed =
      emitAll sink outcome (start s) (dueTasks inOrder n events) := by
  cases inOrder with
  | false => exact handed_play_false events
  | true =>
    have isTask (task : Nat) : task ∈ arrivals events ↔ 1 ≤ task ∧ task < 1 + n := by
      rw [schedule.arrived.mem_iff, List.mem_range'_1]
    have ordered := ordered_play (ordered_start sink outcome s)
      (fun task member => ((isTask task).1 member).1)
      (schedule.arrived.nodup_iff.2 List.nodup_range') (fun task _ => List.not_mem_nil)
    rw [List.append_nil] at ordered
    -- all results have arrived, so the first gap is behind the last task
    have next : (play true sink outcome (start s) events).next = n + 1 := by
      have gap := ordered.gap
      have pos := ordered.waits.next_pos
      rw [List.mem_reverse, isTask] at gap
      by_contra differs
      have last := ordered.waits.before (n + 1) (by omega) (by omega)
      rw [List.mem_reverse, isTask] at last
      omega
    rw [ordered.handed, next]
    rfl

/-- What a run says and leaves, for any schedule. -/
theorem play_spec (inOrder : Bool) (sink : Sink O σ) (outcome : Nat → Outcome O) (s : σ) {n : Nat}
    {events : List Event} (schedule : IsSchedule n events) :
    let served := sink.serve s (Outcome.outputs outcome (dueTasks inOrder n events))
    let d := play inOrder sink outcome (start s) events
    d.sink = served.sink ∧ d.failure = served.failure ∧ d.result =
      match served.failure with
      | some e => .error e
      | none => .ok {
          submitted := n
          emitted := (List.range' 1 n).countP fun task => (outcome task).isOutput
          skipped := (List.range' 1 n).countP fun task => (outcome task).isSkipped
          failed := (List.range' 1 n).countP fun task => (outcome task).isFailed } := by
  intro served d
  -- all tasks fall due, whatever their order, and counts do not depend on it
  have isPerm : (dueTasks inOrder n events).Perm (List.range' 1 n) := by
    cases inOrder with
    | false => exact schedule.arrived
    | true => exact .refl _
  have handed := handed_play inOrder sink outcome s schedule
  obtain ⟨skipped, failed⟩ := counts_emitAll sink outcome (start s) (dueTasks inOrder n events)
  obtain ⟨same, fails, emitted⟩ := emitAll_serves sink outcome (d := start s) rfl
    (dueTasks inOrder n events)
  have submitted : d.counts.submitted = n := by
    rw [submitted_play, schedule.submitted]
    exact Nat.zero_add n
  rw [← handed] at same fails skipped failed emitted
  rw [isPerm.countP_eq] at skipped failed emitted
  refine ⟨same, fails, ?_⟩
  change d.failure = served.failure at fails
  unfold result
  rw [fails]
  cases failure : served.failure with
  | some e => rfl
  | none =>
    have emitted := emitted (fails.trans failure)
    change (d.counts).skipped = 0 + _ at skipped
    change (d.counts).failed = 0 + _ at failed
    change (d.counts).emitted = 0 + _ at emitted
    rw [Nat.zero_add] at skipped failed emitted
    change Except.ok (⟨d.counts.submitted, d.counts.emitted, d.counts.skipped, d.counts.failed⟩ :
      TaskCounts) = _
    rw [submitted, emitted, skipped, failed]

end Delivery

/-! ### The program -/

namespace Pipeline

variable {T ω : Type} {m : Type → Type} [Monad m] [LawfulMonad m]

open Delivery

/-- The error of a task that stops the program. -/
def stopOf (r : Except Error (Option O)) : Option Error :=
  match Pipeline.outcome r with
  | .ok _ => none
  | .error e => some e

/-- Running one task after the other is a schedule, and what the tasks share is changed by one after the
other. -/
theorem runFrom_eq_play_after (p : Pipeline) {work : Work m T O ω} (sink : Sink O σ)
    {outcome : Nat → Outcome O} (after : Nat → T → ω → ω) {inputs : List T} (task : Nat)
    (works : ∀ i input w, inputs[i]? = some input →
      ∃ r, work (task + i) input w = pure (r, after (task + i) input w) ∧
        Pipeline.outcome r = .ok (outcome (task + i)))
    (w : ω) (d : Delivery O σ) :
    p.runFrom work sink task w d none inputs =
      pure (none, (inputs.zipIdx task).foldl (fun w input => after input.2 input.1 w) w,
        play p.keepOrder sink outcome d (Event.inTurn task inputs.length)) := by
  induction inputs generalizing task w d with
  | nil => rfl
  | cons input rest ih =>
    obtain ⟨r, answers, isOutcome⟩ := works 0 input w rfl
    have runs := ih (task + 1) (fun i input w found => by
        obtain ⟨r, answers, isOutcome⟩ := works (i + 1) input w found
        rw [show task + (i + 1) = task + 1 + i by omega] at answers isOutcome
        exact ⟨r, answers, isOutcome⟩) (after task input w)
      (d.submit.arrive p.keepOrder sink task (outcome task))
    rw [Nat.add_zero] at answers isOutcome
    rw [runFrom, answers, pure_bind]
    simp only [isOutcome]
    exact runs

theorem runFrom_eq_play (p : Pipeline) {work : Work m T O ω} (sink : Sink O σ) {outcome : Nat → Outcome O}
    {inputs : List T} (task : Nat)
    (works : ∀ i input w, inputs[i]? = some input →
      ∃ r w', work (task + i) input w = pure (r, w') ∧ Pipeline.outcome r = .ok (outcome (task + i)))
    (w : ω) (d : Delivery O σ) :
    ∃ w', p.runFrom work sink task w d none inputs =
      pure (none, w', play p.keepOrder sink outcome d (Event.inTurn task inputs.length)) := by
  have : Nonempty ω := ⟨w⟩
  have : Nonempty (Except Error (Option O)) := ⟨.ok none⟩
  choose! r after works using works
  refine ⟨_, p.runFrom_eq_play_after sink (fun i => after (i - task)) task
    (fun i input w found => ⟨r i input w, ?_⟩) w d⟩
  rw [Nat.add_sub_cancel_left]
  exact works i input w found

/-- Work whose results depend on the inputs alone is stopped by the first error that no caller handles. -/
theorem runFrom_stopped (p : Pipeline) {work : Work m T O ω} (sink : Sink O σ)
    {result : T → Except Error (Option O)}
    (works : ∀ task input w, ∃ w', work task input w = pure (result input, w')) (inputs : List T)
    (task : Nat) (w : ω) (d : Delivery O σ) (stop : Option Error) :
    ∃ w' d', p.runFrom work sink task w d stop inputs =
      pure (stop.or (inputs.findSome? fun input => stopOf (result input)), w', d') := by
  induction inputs generalizing task w d stop with
  | nil => exact ⟨w, d, by rw [List.findSome?_nil, Option.or_none]; rfl⟩
  | cons input rest ih =>
    obtain ⟨w', answers⟩ := works task input w
    rw [runFrom, answers, pure_bind, List.findSome?_cons, stopOf]
    simp only
    cases isOutcome : Pipeline.outcome (result input) with
    | ok out => exact ih (task + 1) w' _ stop
    | error e =>
      obtain ⟨w', d', runs⟩ := ih (task + 1) w' d.submit (stop.or (some e))
      rw [Option.or_assoc] at runs
      exact ⟨w', d', runs⟩

/-- Whatever the order in which tasks are handed out and results arrive, the sink is given the outputs that
are due and no more once it fails, and the run tells its failure, or else how many tasks there were of each
kind. The program takes the tasks in turn, which is one of these orders. -/
theorem delivers_in_any_order (p : Pipeline) (sink : Sink O σ) (s : σ) (inputs : List T)
    (outcome : Nat → Outcome O) {events : List Event} (schedule : IsSchedule inputs.length events) :
    let due := Outcome.outputs outcome (dueTasks p.keepOrder inputs.length events)
    let served := sink.serve s due
    let d := play p.keepOrder sink outcome (start s) events
    let kind (is : Outcome O → Bool) := (List.range' 1 inputs.length).countP fun task => is (outcome task)
    -- which calls are made, in which order
    ((play p.keepOrder sink.logged outcome (start ([], s)) events).sink = (served.calls, d.sink) ∧
      served.calls <+: due ∧ (served.failure = none → served.calls = due) ∧
      due.Perm (Outcome.outputs outcome (List.range' 1 inputs.length)) ∧
      (p.keepOrder → due.Pairwise (·.1 < ·.1))) ∧
    -- what the run says
    (d.sink = served.sink ∧
      d.result = (match served.failure with
        | some e => .error e
        | none => .ok {
            submitted := inputs.length, emitted := kind Outcome.isOutput
            skipped := kind Outcome.isSkipped, failed := kind Outcome.isFailed }) ∧
      kind Outcome.isOutput + kind Outcome.isSkipped + kind Outcome.isFailed = inputs.length) ∧
    -- the program
    ∀ (work : Work m T O ω) (w : ω),
      (∀ i input w, inputs[i]? = some input →
        ∃ r w', work (1 + i) input w = pure (r, w') ∧ Pipeline.outcome r = .ok (outcome (1 + i))) →
      IsSchedule inputs.length (Event.inTurn 1 inputs.length) ∧ ∃ w', p.run work sink w s inputs =
        let d := play p.keepOrder sink outcome (start s) (Event.inTurn 1 inputs.length)
        pure (d.result, w', d.sink) := by
  intro due served d kind
  obtain ⟨same, fails, isResult⟩ := play_spec p.keepOrder sink outcome s schedule
  obtain ⟨isLog, -⟩ := Sink.serve_logged sink [] s due
  obtain ⟨isPrefix, all⟩ := Sink.serve_calls sink s due
  refine ⟨⟨?_, isPrefix, all, ?_, ?_⟩, ⟨same, isResult, ?_⟩, ?_⟩
  · rw [(play_spec _ sink.logged _ ([], s) schedule).1, isLog, same]
    rfl
  · apply List.Perm.filterMap
    unfold dueTasks
    split
    · exact .refl _
    · exact schedule.arrived
  · intro inOrder
    apply Outcome.pairwise_outputs
    rw [dueTasks, if_pos inOrder]
    exact List.pairwise_lt_range'
  · rw [Outcome.countP_add_countP_add_countP, List.length_range']
  · intro work w works
    refine ⟨isSchedule_inTurn _, ?_⟩
    obtain ⟨w', runs⟩ := p.runFrom_eq_play sink 1 works w (start s)
    refine ⟨w', ?_⟩
    rw [run, runs, pure_bind]
    rfl

/-- Four tasks, whose order is kept: the results of the last arrive first, the second has no output, and the
sink does not take the third. The fourth is never offered. -/
theorem delivers_late_results :
    let outcome : Nat → Outcome Char := fun task => if task = 2 then .skipped else .output 'a'
    let work : Work Id Unit Char Unit := fun task _ _ =>
      pure (.ok (if task = 2 then none else some 'a'), ())
    let sink : Sink Char (List Char) := fun task o taken =>
      if task = 3 then (.error (.groundFile "out"), taken) else (.ok (), o :: taken)
    let events : List Event :=
      [.submit, .submit, .submit, .arrive 3, .arrive 2, .submit, .arrive 4, .arrive 1]
    IsSchedule 4 events ∧
      (play true sink.logged outcome (start ([], [])) events).sink = ([(1, 'a'), (3, 'a')], ['a']) ∧
      (play true sink outcome (start []) events).result = .error (.groundFile "out") ∧
      (new 2 1 true).run work sink () [] [(), (), (), ()] =
        pure (.error (.groundFile "out"), (), ['a']) := by
  intro outcome work sink events
  have schedule : IsSchedule 4 events := ⟨by decide, by decide⟩
  have works (i : Nat) (input : Unit) (w : Unit) (_ : [(), (), (), ()][i]? = some input) :
      ∃ r w', work (1 + i) input w = pure (r, w') ∧ Pipeline.outcome r = .ok (outcome (1 + i)) := by
    refine ⟨_, (), rfl, ?_⟩
    simp only [outcome]
    split <;> rfl
  obtain ⟨⟨log, -⟩, ⟨taken, result, -⟩, program⟩ :=
    delivers_in_any_order (m := Id) (ω := Unit) (new 2 1 true) sink [] [(), (), (), ()] outcome schedule
  obtain ⟨inTurn, w, runs⟩ := program work () works
  obtain ⟨-, ⟨takenInTurn, resultInTurn, -⟩, -⟩ :=
    delivers_in_any_order (m := Id) (ω := Unit) (new 2 1 true) sink [] [(), (), (), ()] outcome inTurn
  refine ⟨schedule, ?_, result, ?_⟩
  · rw [taken] at log
    exact log
  · simp only [resultInTurn, takenInTurn] at runs
    exact runs

end Pipeline

end ProofWalk
