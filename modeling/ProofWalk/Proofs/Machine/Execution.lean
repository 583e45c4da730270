import ProofWalk.Machine.Basic

/-!
# Running straight code

Between two stops the machine runs straight on, so a run splits into lines of code and what ends
them: a call, a return, a clash or an error. A line of code is a list of instructions, without calls
or returns; where one is known to lie in the code, running the code is running the line.

## Main definitions

* `Code.HasAt` — instructions lie at an address
* `Exec.line` — the effect of a line of code

## Main results

* `Code.runSegment_line`, `Code.runSegment_call`, `Code.runSegment_ret` — a run passes a line and
  stops at a call or return behind it
-/

namespace ProofWalk

namespace Exec

variable {α β : Type} {x : Exec α} {f : α → Exec β} {live live' : Live}

/-! ### Sequencing -/

theorem bind_ok {a : α} (first : x live = (.ok a, live')) : (x >>= f) live = f a live' := by
  change ExceptT.bind x f live = _
  simp only [ExceptT.bind, ExceptT.mk, bind, StateT.bind, first]
  rfl

theorem bind_error {e : Error} (first : x live = (.error e, live')) :
    (x >>= f) live = (.error e, live') := by
  change ExceptT.bind x f live = _
  simp only [ExceptT.bind, ExceptT.mk, bind, StateT.bind, first]
  rfl

@[simp] theorem pure_apply (a : α) : (pure a : Exec α) live = (.ok a, live) := rfl

@[simp] theorem state_bind (f : State → Exec β) : (state >>= f) live = f live.state live := rfl

@[simp] theorem update_bind (g : State → State) (f : Unit → Exec β) :
    (update g >>= f) live = f () { live with state := g live.state } := rfl

theorem bind_error_fst {e : Error} (first : (x live).1 = .error e) :
    ((x >>= f) live).1 = .error e := by
  have failed : x live = (.error e, (x live).2) := Prod.ext first rfl
  rw [bind_error failed]

theorem bind_congr {y : Exec α} (same : x live = y live') : (x >>= f) live = (y >>= f) live' := by
  match done : y live' with
  | (.ok a, last) => rw [bind_ok (same.trans done), bind_ok done]
  | (.error e, last) => rw [bind_error (same.trans done), bind_error done]

/-! ### Lines of code -/

/-- Runs instructions that begin at `pc` one after the other; false, and a failed state, on a
clash. -/
def line (findall : Nat → Exec Unit) (pc : Nat) : List Instruction → Exec Bool
  | [] => pure true
  | i :: rest => do
    if ← step findall i then
      update fun s => { s with pc := pc + 1 }
      line findall (pc + 1) rest
    else
      update fun s => { s with failed := true }
      pure false

variable {findall : Nat → Exec Unit} {pc : Nat} {i : Instruction} {rest : List Instruction}

@[simp] theorem line_nil : line findall pc [] live = (.ok true, live) := rfl

theorem line_step (done : step findall i live = (.ok true, live')) :
    line findall pc (i :: rest) live =
      line findall (pc + 1) rest { live' with state := { live'.state with pc := pc + 1 } } := by
  rw [line, bind_ok done]
  rfl

theorem line_clash (clash : step findall i live = (.ok false, live')) :
    line findall pc (i :: rest) live =
      (.ok false, { live' with state := { live'.state with failed := true } }) := by
  rw [line, bind_ok clash]
  rfl

theorem line_error {e : Error} (fails : (step findall i live).1 = .error e) :
    (line findall pc (i :: rest) live).1 = .error e := by
  rw [line]
  exact bind_error_fst fails

/-- A line that runs to its end leaves the place behind it. -/
theorem line_pc {instructions : List Instruction} (start : live.state.pc = pc)
    (done : line findall pc instructions live = (.ok true, live')) :
    live'.state.pc = pc + instructions.length := by
  induction instructions generalizing pc live with
  | nil =>
    obtain rfl : live = live' := congrArg Prod.snd done
    exact start
  | cons i rest ih =>
    match first : step findall i live with
    | (.ok true, middle) =>
      rw [line_step first] at done
      let next : Live := { middle with state := { middle.state with pc := pc + 1 } }
      have there : next.state.pc = pc + 1 := rfl
      rw [ih there done, List.length_cons]
      omega
    | (.ok false, middle) =>
      rw [line_clash first] at done
      cases congrArg Prod.fst done
    | (.error e, middle) =>
      have failed : (line findall pc (i :: rest) live).1 = .error e :=
        line_error (congrArg Prod.fst first)
      rw [done] at failed
      cases failed

/-- A line is run piece by piece. -/
theorem line_append {front back : List Instruction} :
    line findall pc (front ++ back) live =
      match line findall pc front live with
      | (.ok true, live) => line findall (pc + front.length) back live
      | (.ok false, live) => (.ok false, live)
      | (.error e, live) => (.error e, live) := by
  induction front generalizing pc live with
  | nil => rfl
  | cons i front ih =>
    rw [List.cons_append, line, line]
    match done : step findall i live with
    | (.ok true, live') =>
      rw [bind_ok done, bind_ok done, if_pos rfl, if_pos rfl, update_bind, update_bind, ih,
        List.length_cons, show pc + 1 + front.length = pc + (front.length + 1) by omega]
    | (.ok false, live') =>
      rw [bind_ok done, bind_ok done]
      rfl
    | (.error e, live') => rw [bind_error done, bind_error done]

end Exec

/-- Whether an instruction leaves the line. -/
def Instruction.leaves : Instruction → Bool
  | .call _ | .ret => true
  | _ => false

namespace Code

open Exec

variable {code : Code} {findall : Nat → Exec Unit} {live live' : Live} {pc : Nat}

/-- Instructions lie at an address. -/
def HasAt (code : Code) (pc : Nat) (instructions : List Instruction) : Prop :=
  ∀ k < instructions.length, code.fetch? (pc + k) = instructions[k]?

theorem HasAt.nil : code.HasAt pc [] := fun k inside => by simp at inside

theorem HasAt.fetch {i : Instruction} {rest : List Instruction}
    (placed : code.HasAt pc (i :: rest)) : code.fetch? pc = some i := by
  simpa using placed 0 (by simp)

theorem HasAt.tail {i : Instruction} {rest : List Instruction}
    (placed : code.HasAt pc (i :: rest)) : code.HasAt (pc + 1) rest := by
  intro k inside
  have next := placed (k + 1) (by simpa using inside)
  rwa [List.getElem?_cons_succ, show pc + (k + 1) = pc + 1 + k by omega] at next

theorem HasAt.left {front back : List Instruction} (placed : code.HasAt pc (front ++ back)) :
    code.HasAt pc front := by
  intro k inside
  rw [placed k (by simp; omega), List.getElem?_append_left inside]

theorem HasAt.right {front back : List Instruction} (placed : code.HasAt pc (front ++ back)) :
    code.HasAt (pc + front.length) back := by
  intro k inside
  have found := placed (front.length + k) (by simp; omega)
  rwa [List.getElem?_append_right (by omega), Nat.add_sub_cancel_left, ← Nat.add_assoc] at found

/-- Code of one address is one code, as far as it goes. -/
theorem HasAt.prefix_of_le {short long : List Instruction}
    (first : code.HasAt pc short) (second : code.HasAt pc long) (shorter : short.length ≤ long.length) :
    short <+: long := by
  apply List.prefix_iff_eq_take.2
  apply List.ext_getElem?
  intro k
  rw [List.getElem?_take]
  by_cases inside : k < short.length
  · rw [if_pos inside, ← first k inside, second k (by omega)]
  · rw [if_neg inside, List.getElem?_eq_none (by omega)]

/-- A line without calls and returns ends before the return of the code that it lies in. -/
theorem HasAt.prefix_of_stays {instructions front : List Instruction}
    (placed : code.HasAt pc instructions) (stays : ∀ i ∈ instructions, i.leaves = false)
    (whole : code.HasAt pc (front ++ [.ret])) : instructions <+: front ++ [.ret] := by
  apply placed.prefix_of_le whole
  apply Nat.le_of_not_lt
  intro longer
  rw [List.length_append, List.length_singleton] at longer
  have inside : front.length < instructions.length := by omega
  have isReturn := whole front.length (by simp)
  rw [placed _ inside, List.getElem?_concat_length, List.getElem?_eq_getElem inside] at isReturn
  have leaves := stays _ (List.getElem_mem inside)
  rw [Option.some.inj isReturn] at leaves
  cases leaves

/-! ### One instruction -/

theorem runSegment_call {label : String} (placed : code.fetch? pc = some (.call label)) :
    code.runSegment findall pc = (do park label; pure false) := by
  rw [runSegment]
  split <;> simp_all

theorem runSegment_ret (placed : code.fetch? pc = some .ret) :
    code.runSegment findall pc = return? := by
  rw [runSegment]
  split <;> simp_all

/-- A run passes a line that holds no call and no return. -/
theorem runSegment_line {instructions : List Instruction} (placed : code.HasAt pc instructions)
    (stays : ∀ i ∈ instructions, i.leaves = false) :
    code.runSegment findall pc live =
      match line findall pc instructions live with
      | (.ok true, live) => code.runSegment findall (pc + instructions.length) live
      | (.ok false, live) => (.ok false, live)
      | (.error e, live) => (.error e, live) := by
  induction instructions generalizing pc live with
  | nil => rfl
  | cons i rest ih =>
    have run : code.runSegment findall pc = (do
        if ← step findall i then
          update fun s => { s with pc := pc + 1 }
          code.runSegment findall (pc + 1)
        else
          update fun s => { s with failed := true }
          pure false) := by
      have here := placed.fetch
      have notLeaving := stays i (by simp)
      rw [runSegment]
      split
      · simp_all
      · simp_all only [Option.some.injEq]
        subst here
        cases notLeaving
      · simp_all only [Option.some.injEq]
        subst here
        cases notLeaving
      · simp_all
    rw [run, line]
    rcases done : step findall i live with ⟨e | goesOn, live'⟩
    · rw [bind_error done, bind_error done]
    cases goesOn with
    | true =>
      rw [bind_ok done, bind_ok done, if_pos rfl, if_pos rfl, update_bind, update_bind,
        ih placed.tail fun j member => stays j (List.mem_cons_of_mem i member), List.length_cons,
        show pc + 1 + rest.length = pc + (rest.length + 1) by omega]
    | false =>
      rw [bind_ok done, bind_ok done]
      rfl

end Code

end ProofWalk
