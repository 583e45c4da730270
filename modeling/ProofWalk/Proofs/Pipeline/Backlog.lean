import Mathlib.Data.Option.Basic
import ProofWalk.Pipeline.Backlog

/-!
# Pipelines at work never get stuck

The producer of a pipeline falls asleep above one number of tasks in flight and goes on below another,
while workers count tasks off and then wake it. Whatever the order of the moves, the count is that of the
tasks that have been handed out and not been counted off, and it exceeds the throttle by no more than the
task that filled it. A producer that sleeps has not missed its last call: the tasks in flight and the
workers about to wake it are together more than the workers, so some task still waits for one of them.

Every move spends some of a supply that the inputs bring with them. A pipeline that can always move while
it is not at its end therefore comes to its end, whoever moves first.

## Main definitions

* `Dispatch.Sound` — what holds of a pipeline at all times
* `Dispatch.supply` — a bound on the moves that are left

## Main results

* `Dispatch.Sound.move` — every move keeps it
* `Dispatch.supply_lt` — every move spends
* `Dispatch.backlog_safe` — the backlog is right, bounded, and never leaves the pipeline stuck
-/

namespace ProofWalk

namespace Pipeline

/-- A throttle is never below the number of workers. -/
theorem threads_le_throttle (threads throttle : Nat) (keepOrder : Bool) :
    (new threads throttle keepOrder).threads ≤ (new threads throttle keepOrder).throttle :=
  Nat.le_max_right ..

/-- There is always a worker. -/
theorem threads_pos (threads throttle : Nat) (keepOrder : Bool) :
    0 < (new threads throttle keepOrder).threads :=
  Nat.le_max_right ..

end Pipeline

/-- The moves of workers; the others are those of the producer. -/
def Move.isWorkers : Move → Bool
  | start | handIn | breakOff | release | wake => true
  | _ => false

/-- The most moves that a producer makes before it takes the next input or leaves, not counting those for
which something else is spent. -/
def Producer.supply : Producer → Nat
  | done => 0
  | draining | asleep | free => 1
  | offering | awake => 2

namespace Dispatch

variable {p : Pipeline} {d d' : Dispatch} {m : Move}

/-- A move that has been made could be made. -/
theorem of_ite_eq_some {possible : Prop} [Decidable possible] {next : Dispatch}
    (moves : (if possible then some next else none) = some d') : possible ∧ next = d' := by
  split at moves
  · rename_i isPossible
    exact ⟨isPossible, Option.some.inj moves⟩
  · cases moves

/-! ### What holds at all times -/

/-- The backlog counts the tasks that are not over, no more than one of them is beyond the throttle, and a
producer that sleeps will be woken. -/
structure Sound (p : Pipeline) (d : Dispatch) : Prop where
  counted : d.backlog.inFlight = d.unfinished
  fits : d.busy ≤ p.threads
  bounded : d.backlog.inFlight ≤ p.throttle + 1
  /-- There is room for the next task. -/
  room : d.producer = .free → d.backlog.inFlight ≤ p.throttle
  /-- Every worker that has counted off a task since the producer fell asleep is about to wake it. -/
  watched : d.producer = .asleep → p.threads < d.backlog.inFlight + d.waking
  /-- Only in front of an input does the producer look at the backlog. -/
  more : d.producer = .free ∨ d.producer = .asleep ∨ d.producer = .awake → 0 < d.inputs
  closed : d.producer = .draining ∨ d.producer = .done → d.inputs = 0

theorem sound_start (p : Pipeline) (inputs : Nat) : (start inputs).Sound p where
  counted := rfl
  fits := Nat.zero_le _
  bounded := Nat.zero_le _
  room := nofun
  watched := nofun
  more := by simp [start]
  closed := by simp [start]

/-- Looking at the backlog settles where the producer stands. -/
theorem Sound.settle (sound : d.Sound p) (roomy : p.threads ≤ p.throttle) (more : 0 < d.inputs) :
    (d.settle p).Sound p where
  counted := sound.counted
  fits := sound.fits
  bounded := sound.bounded
  room := by
    simp only [Dispatch.settle]
    split
    · nofun
    · intro _
      omega
  watched := by
    simp only [Dispatch.settle]
    split
    · intro _
      omega
    · nofun
  more := fun _ => more
  closed := by
    simp only [Dispatch.settle]
    split <;> simp

/-- Every move keeps a pipeline sound. -/
theorem Sound.move (sound : d.Sound p) (roomy : p.threads ≤ p.throttle)
    (moves : d.move? p m = some d') : d'.Sound p := by
  have counted := sound.counted
  have fits := sound.fits
  have bounded := sound.bounded
  simp only [unfinished, busy] at counted fits
  cases m with
  | throttle =>
    obtain ⟨⟨-, more⟩, rfl⟩ := of_ite_eq_some moves
    split
    · exact sound.settle roomy more
    · exact ⟨sound.counted, sound.fits, sound.bounded, fun _ => by simp only; omega, nofun, fun _ => more,
        by simp⟩
  | look =>
    obtain ⟨awake, rfl⟩ := of_ite_eq_some moves
    exact sound.settle roomy (sound.more (.inr (.inr awake)))
  | submit =>
    obtain ⟨free, rfl⟩ := of_ite_eq_some moves
    -- the only move that adds to the backlog begins with room in it
    have room := sound.room free
    refine ⟨?_, sound.fits, ?_, nofun, nofun, by simp, by simp⟩
    · simp only [Backlog.submit, unfinished]
      omega
    · simp only [Backlog.submit]
      omega
  | take =>
    obtain ⟨-, rfl⟩ := of_ite_eq_some moves
    exact ⟨sound.counted, sound.fits, sound.bounded, sound.room, sound.watched, sound.more,
      sound.closed⟩
  | close =>
    obtain ⟨⟨-, none⟩, rfl⟩ := of_ite_eq_some moves
    exact ⟨sound.counted, sound.fits, sound.bounded, nofun, nofun, by simp, fun _ => none⟩
  | leave =>
    obtain ⟨⟨draining, -⟩, rfl⟩ := of_ite_eq_some moves
    exact ⟨sound.counted, sound.fits, sound.bounded, nofun, nofun, by simp,
      fun _ => sound.closed (.inl draining)⟩
  | start =>
    obtain ⟨⟨waits, idle⟩, rfl⟩ := of_ite_eq_some moves
    simp only [busy] at idle
    refine ⟨?_, ?_, sound.bounded, sound.room, sound.watched, sound.more,
      sound.closed⟩
    · simp only [unfinished]
      omega
    · simp only [busy]
      omega
  | handIn =>
    obtain ⟨runs, rfl⟩ := of_ite_eq_some moves
    refine ⟨?_, ?_, sound.bounded, sound.room, sound.watched, sound.more,
      sound.closed⟩
    · simp only [unfinished]
      omega
    · simp only [busy]
      omega
  | breakOff =>
    obtain ⟨runs, rfl⟩ := of_ite_eq_some moves
    refine ⟨?_, ?_, sound.bounded, sound.room, sound.watched, sound.more,
      sound.closed⟩
    · simp only [unfinished]
      omega
    · simp only [busy]
      omega
  | release =>
    obtain ⟨ends, rfl⟩ := of_ite_eq_some moves
    refine ⟨?_, ?_, ?_, ?_, ?_, sound.more, sound.closed⟩
    · simp only [Backlog.finish, unfinished]
      omega
    · simp only [busy]
      omega
    · simp only [Backlog.finish]
      omega
    · intro free
      have room := sound.room free
      simp only [Backlog.finish]
      omega
    · -- one task less is in flight, and one worker more is about to wake the producer
      intro asleep
      have watched := sound.watched asleep
      simp only [Backlog.finish]
      omega
  | wake =>
    obtain ⟨wakes, rfl⟩ := of_ite_eq_some moves
    have fits' : ({ d with waking := d.waking - 1 } : Dispatch).busy ≤ p.threads := by
      simp only [busy]
      omega
    by_cases asleep : d.producer = .asleep
    · simp only [if_pos asleep]
      exact ⟨sound.counted, fits', sound.bounded, nofun, nofun, fun _ => sound.more (.inr (.inl asleep)),
        by simp⟩
    · simp only [if_neg asleep]
      exact ⟨sound.counted, fits', sound.bounded, sound.room, fun isAsleep => absurd isAsleep asleep,
        sound.more, sound.closed⟩

@[simp]
theorem run?_nil (p : Pipeline) (d : Dispatch) : d.run? p [] = some d := rfl

theorem run?_cons {moves : List Move} :
    d.run? p (m :: moves) = some d' ↔ ∃ next, d.move? p m = some next ∧ next.run? p moves = some d' :=
  Option.bind_eq_some_iff

/-- So does every run. -/
theorem Sound.run (sound : d.Sound p) (roomy : p.threads ≤ p.throttle) {moves : List Move}
    (runs : d.run? p moves = some d') : d'.Sound p := by
  induction moves generalizing d with
  | nil =>
    cases runs
    exact sound
  | cons m moves ih =>
    obtain ⟨next, moves, runs⟩ := run?_cons.1 runs
    exact ih (sound.move roomy moves) runs

/-! ### Counting moves -/

/-- A task is in flight between being handed out and being counted off. -/
theorem inFlight_move (sound : d.Sound p) (moves : d.move? p m = some d') :
    d'.backlog.inFlight + (if m = .release then 1 else 0) =
        d.backlog.inFlight + (if m = .submit then 1 else 0) ∧
      d'.inputs + (if m = .submit then 1 else 0) = d.inputs := by
  have counted := sound.counted
  simp only [unfinished] at counted
  cases m with
  | throttle =>
    obtain ⟨-, rfl⟩ := of_ite_eq_some moves
    split <;> exact ⟨rfl, rfl⟩
  | submit =>
    obtain ⟨free, rfl⟩ := of_ite_eq_some moves
    have more := sound.more (.inl free)
    refine ⟨rfl, ?_⟩
    simp only [if_true]
    omega
  | release =>
    obtain ⟨ends, rfl⟩ := of_ite_eq_some moves
    refine ⟨?_, rfl⟩
    simp only [Backlog.finish, if_true, reduceCtorEq, if_false]
    omega
  | look | take | close | leave | start | handIn | breakOff | wake =>
    obtain ⟨-, rfl⟩ := of_ite_eq_some moves
    exact ⟨rfl, rfl⟩

/-- Along a run the backlog is the number of tasks handed out less that of tasks counted off. -/
theorem inFlight_run (sound : d.Sound p) (roomy : p.threads ≤ p.throttle) {moves : List Move}
    (runs : d.run? p moves = some d') :
    d'.backlog.inFlight + moves.count .release = d.backlog.inFlight + moves.count .submit ∧
      d'.inputs + moves.count .submit = d.inputs := by
  induction moves generalizing d with
  | nil =>
    cases runs
    exact ⟨rfl, rfl⟩
  | cons m moves ih =>
    obtain ⟨next, moves, runs⟩ := run?_cons.1 runs
    obtain ⟨inFlight, inputs⟩ := inFlight_move sound moves
    obtain ⟨inFlight', inputs'⟩ := ih (sound.move roomy moves) runs
    simp only [List.count_cons, beq_iff_eq]
    omega

/-! ### Supply -/

/-- A bound on the moves that are left: an input brings those of its task, and the producer has at most two
more before it is done with an input. -/
def supply (d : Dispatch) : Nat :=
  8 * d.inputs + 6 * d.queued + 5 * d.running + 3 * d.ending + 2 * d.waking + d.results +
    d.producer.supply

theorem supply_settle (p : Pipeline) (d : Dispatch) : (d.settle p).producer.supply = 1 := by
  unfold settle
  split <;> rfl

/-- Every move spends some of the supply. -/
theorem supply_lt (sound : d.Sound p) (moves : d.move? p m = some d') : d'.supply < d.supply := by
  unfold supply
  cases m with
  | throttle =>
    obtain ⟨⟨offering, -⟩, rfl⟩ := of_ite_eq_some moves
    rw [offering]
    split
    · rw [supply_settle]
      exact Nat.lt_succ_self _
    · exact Nat.lt_succ_self _
  | look =>
    obtain ⟨awake, rfl⟩ := of_ite_eq_some moves
    rw [awake, supply_settle]
    exact Nat.lt_succ_self _
  | submit =>
    obtain ⟨free, rfl⟩ := of_ite_eq_some moves
    have more := sound.more (.inl free)
    simp only [free, Producer.supply]
    omega
  | take =>
    obtain ⟨⟨-, some⟩, rfl⟩ := of_ite_eq_some moves
    simp only
    omega
  | close =>
    obtain ⟨⟨offering, -⟩, rfl⟩ := of_ite_eq_some moves
    rw [offering]
    exact Nat.lt_succ_self _
  | leave =>
    obtain ⟨⟨draining, -⟩, rfl⟩ := of_ite_eq_some moves
    rw [draining]
    exact Nat.lt_succ_self _
  | start =>
    obtain ⟨⟨waits, -⟩, rfl⟩ := of_ite_eq_some moves
    simp only
    omega
  | handIn | breakOff | release =>
    obtain ⟨some, rfl⟩ := of_ite_eq_some moves
    simp only
    omega
  | wake =>
    obtain ⟨wakes, rfl⟩ := of_ite_eq_some moves
    -- a wake-up is spent even where the producer is up already
    by_cases asleep : d.producer = .asleep
    · simp only [asleep, if_true, Producer.supply]
      omega
    · simp only [if_neg asleep]
      omega

theorem length_add_supply_le (sound : d.Sound p) (roomy : p.threads ≤ p.throttle) {moves : List Move}
    (runs : d.run? p moves = some d') : moves.length + d'.supply ≤ d.supply := by
  induction moves generalizing d with
  | nil =>
    cases runs
    exact Nat.le_of_eq (Nat.zero_add _)
  | cons m moves ih =>
    obtain ⟨next, moves, runs⟩ := run?_cons.1 runs
    have spent := supply_lt sound moves
    have rest := ih (sound.move roomy moves) runs
    rw [List.length_cons]
    omega

/-! ### Progress -/

theorem isFinal_eq_true : d.isFinal ↔ d.producer = .done ∧ d.unfinished = 0 ∧ d.waking = 0 :=
  decide_eq_true_iff

/-- Workers with a task can move, and so can one without if a task waits. -/
theorem exists_worker_move (workers : 0 < p.threads) (work : 0 < d.unfinished + d.waking) :
    ∃ m, m.isWorkers ∧ (d.move? p m).isSome := by
  unfold unfinished at work
  by_cases wakes : 0 < d.waking
  · exact ⟨.wake, rfl, by simp [move?, wakes]⟩
  by_cases ends : 0 < d.ending
  · exact ⟨.release, rfl, by simp [move?, ends]⟩
  by_cases runs : 0 < d.running
  · exact ⟨.handIn, rfl, by simp [move?, runs]⟩
  have idle : d.busy < p.threads := by
    unfold busy
    omega
  exact ⟨.start, rfl, by simp [move?, idle]; omega⟩

/-- While the producer sleeps, some task is not over. -/
theorem Sound.unfinished_pos (sound : d.Sound p) (asleep : d.producer = .asleep) : 0 < d.unfinished := by
  have counted := sound.counted
  have fits := sound.fits
  have watched := sound.watched asleep
  simp only [unfinished, busy] at counted fits ⊢
  omega

/-- Only a pipeline at its end cannot move. -/
theorem Sound.isFinal_iff (sound : d.Sound p) (workers : 0 < p.threads) :
    d.isFinal ↔ ∀ m, d.move? p m = none := by
  constructor
  · intro ended
    obtain ⟨done, finished, quiet⟩ := isFinal_eq_true.1 ended
    unfold unfinished at finished
    intro m
    cases m with
    | throttle | look | submit | take | close | leave => simp [move?, done]
    | start | handIn | breakOff | release | wake =>
      apply if_neg
      omega
  · intro stuck
    -- no worker has anything to do, so nothing can wake a producer that sleeps
    have quiet : d.unfinished = 0 ∧ d.waking = 0 := by
      by_contra work
      obtain ⟨m, -, isSome⟩ := exists_worker_move workers (d := d) (by omega)
      rw [stuck m] at isSome
      cases isSome
    cases producer : d.producer with
    | done => exact isFinal_eq_true.2 ⟨producer, quiet⟩
    | offering =>
      have throttle := stuck .throttle
      have close := stuck .close
      by_cases none : d.inputs = 0
      · simp [move?, producer, none] at close
      · simp [move?, producer, Nat.pos_of_ne_zero none] at throttle
    | asleep =>
      have some := sound.unfinished_pos producer
      omega
    | awake =>
      have look := stuck .look
      simp [move?, producer] at look
    | free =>
      have submit := stuck .submit
      simp [move?, producer] at submit
    | draining =>
      have take := stuck .take
      have leave := stuck .leave
      by_cases none : d.results = 0
      · simp [move?, producer, none, quiet] at leave
      · simp [move?, producer, Nat.pos_of_ne_zero none] at take

/-! ### Waking -/

theorem wakes_of_waking (asleep : d.producer = .asleep) (waking : 0 < d.waking) :
    ∃ next, d.move? p .wake = some next ∧ next.producer = .awake :=
  ⟨_, if_pos waking, if_pos asleep⟩

/-- A worker that counts off a task can wake a producer that sleeps. -/
theorem wakes_of_release (asleep : d.producer = .asleep) (moves : d.move? p .release = some d') :
    ∃ next, d'.move? p .wake = some next ∧ next.producer = .awake := by
  obtain ⟨-, rfl⟩ := of_ite_eq_some moves
  exact wakes_of_waking asleep (Nat.succ_pos _)

/-- Workers bring some task to its end and wake a producer that sleeps, without any move of the producer. -/
theorem Sound.exists_wake (sound : d.Sound p) (workers : 0 < p.threads) (asleep : d.producer = .asleep) :
    ∃ moves next, (∀ m ∈ moves, m.isWorkers) ∧ d.run? p moves = some next ∧ next.producer = .awake := by
  -- by how far a task has come
  have fromWaking (d : Dispatch) (asleep : d.producer = .asleep) (waking : 0 < d.waking) :
      ∃ next, d.run? p [.wake] = some next ∧ next.producer = .awake := by
    obtain ⟨next, moves, awake⟩ := wakes_of_waking asleep waking
    exact ⟨next, run?_cons.2 ⟨next, moves, rfl⟩, awake⟩
  have fromEnding (d : Dispatch) (asleep : d.producer = .asleep) (ends : 0 < d.ending) :
      ∃ next, d.run? p [.release, .wake] = some next ∧ next.producer = .awake := by
    obtain ⟨next, runs, awake⟩ := fromWaking { d with
      backlog := d.backlog.finish, ending := d.ending - 1, waking := d.waking + 1 } asleep (Nat.succ_pos _)
    exact ⟨next, run?_cons.2 ⟨_, if_pos ends, runs⟩, awake⟩
  have fromRunning (d : Dispatch) (asleep : d.producer = .asleep) (busy : 0 < d.running) :
      ∃ next, d.run? p [.breakOff, .release, .wake] = some next ∧ next.producer = .awake := by
    obtain ⟨next, runs, awake⟩ := fromEnding { d with
      running := d.running - 1, ending := d.ending + 1 } asleep (Nat.succ_pos _)
    exact ⟨next, run?_cons.2 ⟨_, if_pos busy, runs⟩, awake⟩
  by_cases wakes : 0 < d.waking
  · obtain ⟨next, runs, awake⟩ := fromWaking d asleep wakes
    exact ⟨_, next, by simp [Move.isWorkers], runs, awake⟩
  by_cases ends : 0 < d.ending
  · obtain ⟨next, runs, awake⟩ := fromEnding d asleep ends
    exact ⟨_, next, by simp [Move.isWorkers], runs, awake⟩
  by_cases busy : 0 < d.running
  · obtain ⟨next, runs, awake⟩ := fromRunning d asleep busy
    exact ⟨_, next, by simp [Move.isWorkers], runs, awake⟩
  -- no worker has a task, so one of them begins the first that waits
  have some := sound.unfinished_pos asleep
  unfold unfinished at some
  obtain ⟨next, runs, awake⟩ := fromRunning { d with
    queued := d.queued - 1, running := d.running + 1 } asleep (Nat.succ_pos _)
  have begins : 0 < d.queued ∧ d.busy < p.threads := by
    unfold Dispatch.busy
    omega
  exact ⟨.start :: _, next, by simp [Move.isWorkers], run?_cons.2 ⟨_, if_pos begins, runs⟩, awake⟩

/-! ### Runs -/

/-- In every state that any order of moves leads to, the backlog is the number of tasks that have been
handed out and not been counted off, it is at most one above the throttle, and counting off a task really
takes one away. While the producer sleeps there is a task that is not over, workers can bring one to its
end, and whoever counts one off can wake the producer. Only at its end can the pipeline not move, and it
comes to its end. -/
theorem backlog_safe (threads throttle : Nat) (keepOrder : Bool) {inputs : Nat} {moves : List Move}
    {d : Dispatch} (runs : (start inputs).run? (.new threads throttle keepOrder) moves = some d) :
    let p := Pipeline.new threads throttle keepOrder
    (d.backlog.inFlight = d.unfinished ∧
      moves.count .submit = moves.count .release + d.backlog.inFlight ∧
      d.backlog.inFlight ≤ max throttle p.threads + 1) ∧
    (∀ next, d.move? p .release = some next → next.backlog.inFlight + 1 = d.backlog.inFlight) ∧
    (d.producer = .asleep → 0 < d.unfinished ∧
      (∀ next, d.move? p .release = some next →
        ∃ woken, next.move? p .wake = some woken ∧ woken.producer = .awake) ∧
      (∃ m, m.isWorkers ∧ (d.move? p m).isSome) ∧
      ∃ course next, (∀ m ∈ course, m.isWorkers) ∧ d.run? p course = some next ∧
        next.producer = .awake) ∧
    (d.isFinal ↔ ∀ m, d.move? p m = none) ∧
    moves.length ≤ 8 * inputs + 2 ∧ (d.isFinal → moves.count .submit = inputs) := by
  intro p
  have roomy := Pipeline.threads_le_throttle threads throttle keepOrder
  have workers := Pipeline.threads_pos threads throttle keepOrder
  have sound : d.Sound p := (sound_start p inputs).run roomy runs
  obtain ⟨inFlight, remain⟩ := inFlight_run (sound_start p inputs) roomy runs
  refine ⟨⟨sound.counted, ?_, sound.bounded⟩, ?_, ?_, sound.isFinal_iff workers, ?_, ?_⟩
  · simp only [start] at inFlight
    omega
  · intro next moves
    exact (inFlight_move sound moves).1
  · intro asleep
    have some := sound.unfinished_pos asleep
    exact ⟨some, fun next moves => wakes_of_release asleep moves,
      exists_worker_move workers (by omega), sound.exists_wake workers asleep⟩
  · have spent := length_add_supply_le (sound_start p inputs) roomy runs
    have supply : (start inputs).supply = 8 * inputs + 2 := rfl
    omega
  · intro ended
    have closed := sound.closed (.inr (isFinal_eq_true.1 ended).1)
    simp only [start] at remain
    omega

/-- One worker and room for one task: with the second task handed out and none begun, the producer falls
asleep. -/
theorem backlog_safe_asleep :
    let d : Dispatch :=
      { start 3 with producer := .asleep, backlog := { inFlight := 2 }, inputs := 1, queued := 2 }
    (start 3).run? (.new 1 1 true) [.throttle, .submit, .throttle, .submit, .throttle] = some d ∧
      0 < d.unfinished ∧ d.backlog.inFlight ≤ max 1 1 + 1 := by
  intro d
  have runs : (start 3).run? (.new 1 1 true) [.throttle, .submit, .throttle, .submit, .throttle] =
      some d := by decide
  obtain ⟨⟨-, -, bounded⟩, -, wakes, -⟩ := backlog_safe 1 1 true runs
  exact ⟨runs, (wakes rfl).1, bounded⟩

end Dispatch

end ProofWalk
