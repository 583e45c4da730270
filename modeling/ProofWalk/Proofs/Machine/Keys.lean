import ProofWalk.Proofs.Machine.Answers
import ProofWalk.Proofs.Resolution.Forms

/-!
# The key of a state

The key of a state is the canonical form of the resolvent that it stands for. While the key is read
off, the numbers given to unbound cells are those of the variables that the cells stand for. The code
that a caller goes on with introduces variables that have no cell yet; these occur nowhere else, and
the registers that the code sets for them are kept beside the cells.

## Main definitions

* `NumbersMet` — the numbers given so far are those of the variables met so far
* `Continuing` — the same within the code of a caller

## Main results

* `Represents.key_eq` — the key of a state is the canonical form of its resolvent
-/

namespace ProofWalk

open Token (number)

/-! ### Numbering cells -/

/-- The numbers given to unbound cells are those of the variables that they stand for. -/
structure NumbersMet (s : State) (read : Nat → Term) (n : Numbering) (met : List Variable) : Prop where
  next : n.next = met.length
  nodup : met.Nodup
  cell : ∀ {d v}, s.heap[d]? = some (.ref d) → read d = .var v →
    n.cells.lookup d = if v ∈ met then some (met.idxOf v) else none

/-- A part of a key is that of a token, and so are the numbers given behind it. -/
def Tells (s : State) (read : Nat → Term) (met : List Variable) (part : KeyPart × Numbering)
    (t : Token) : Prop :=
  part.1 = (t.part met).1 ∧ NumbersMet s read part.2 (t.part met).2

namespace NumbersMet

variable {s : State} {read : Nat → Term} {n : Numbering} {met : List Variable}

theorem empty : NumbersMet s read .empty [] where
  next := rfl
  nodup := List.nodup_nil
  cell _ _ := rfl

theorem idxOf_meet {v w : Variable} (known : w ∈ met) : (meet met v).idxOf w = met.idxOf w :=
  ((prefix_meet met v).idxOf_eq_of_mem known).symm

/-- An unbound cell has the number of its variable. -/
theorem ofCell (numbers : NumbersMet s read n met) (reads : Reads s.heap read) {d : Nat} {v : Variable}
    (free : s.heap[d]? = some (.ref d)) (stands : read d = .var v) :
    (n.ofCell d).1 = (meet met v).idxOf v ∧ NumbersMet s read (n.ofCell d).2 (meet met v) := by
  have looked := numbers.cell free stands
  unfold Numbering.ofCell
  by_cases known : v ∈ met
  · rw [if_pos known] at looked
    rw [looked, meet, if_pos known]
    exact ⟨rfl, numbers⟩
  · rw [if_neg known] at looked
    rw [looked]
    refine ⟨numbers.next.trans (idxOf_meet_self known).symm, ?_⟩
    refine ⟨?_, nodup_meet numbers.nodup v, fun {e w} freeE standsE => ?_⟩
    · rw [meet, if_neg known, List.length_append, ← numbers.next]
      rfl
    · rw [List.lookup_cons]
      by_cases same : e = d
      · subst same
        obtain rfl : v = w := Term.var.inj (stands.symm.trans standsE)
        rw [beq_self_eq_true, if_pos (mem_meet.2 (.inr rfl)), idxOf_meet_self known, numbers.next]
      · rw [beq_false_of_ne same]
        have different : w ≠ v := by
          rintro rfl
          exact same (reads.distinct freeE free (standsE.trans stands.symm))
        have before := numbers.cell freeE standsE
        by_cases old : w ∈ met
        · rw [if_pos old] at before
          rw [if_pos (mem_meet.2 (.inl old)), idxOf_meet old]
          exact before
        · rw [if_neg old] at before
          rw [if_neg fun new => (mem_meet.1 new).elim old different]
          exact before

/-- A variable without a cell takes the next number. -/
theorem fresh (numbers : NumbersMet s read n met) {v : Variable} (unmet : v ∉ met)
    (absent : ∀ i < s.heap.size, read i ≠ .var v) :
    n.fresh.1 = (meet met v).idxOf v ∧ NumbersMet s read n.fresh.2 (meet met v) := by
  refine ⟨numbers.next.trans (idxOf_meet_self unmet).symm, ?_, nodup_meet numbers.nodup v,
    fun {d w} free stands => ?_⟩
  · rw [meet, if_neg unmet, List.length_append, ← numbers.next]
    rfl
  · have inside : d < s.heap.size := (Array.getElem?_eq_some_iff.1 free).1
    have different : w ≠ v := by
      rintro rfl
      exact absent d inside stands
    have before := numbers.cell free stands
    by_cases old : w ∈ met
    · rw [if_pos old] at before
      rw [if_pos (mem_meet.2 (.inl old)), idxOf_meet old]
      exact before
    · rw [if_neg old] at before
      rw [if_neg fun new => (mem_meet.1 new).elim old different]
      exact before

/-- The part for a cell is that of its term. -/
theorem cellPart (numbers : NumbersMet s read n met) (reads : Reads s.heap read) {i : Nat}
    (inside : i < s.heap.size) : Tells s read met (s.cellPart i n) (.term (read i)) := by
  have constant := reads.constantAt_eq inside
  unfold State.cellPart
  rw [constant]
  cases term : read i with
  | constant c => exact ⟨rfl, numbers⟩
  | var v =>
    have free := reads.cell_of_var inside term
    obtain ⟨number, after⟩ := numbers.ofCell reads free ((reads.dereference inside).2.1.trans term)
    exact ⟨congrArg KeyPart.variable number, after⟩

/-- The part for a register that is set. -/
theorem registerPart (numbers : NumbersMet s read n met) (reads : Reads s.heap read) {index : Int}
    {i cell : Nat} (isIndex : index = i) (held : s.registers[i]? = some (some cell))
    (inside : cell < s.heap.size) :
    Tells s read met (s.registerPart index n) (.term (read cell)) := by
  have found : s.registerPart index n = s.cellPart cell n := by
    subst isIndex
    simp [State.registerPart, held]
  rw [found]
  exact numbers.cellPart reads inside

/-- The parts for a list are those of its tokens. -/
theorem keyParts {α : Type} (numbers : NumbersMet s read n met)
    (part : α → Numbering → KeyPart × Numbering) (token : α → Token) (as : List α)
    (each : ∀ a ∈ as, ∀ n met, NumbersMet s read n met → Tells s read met (part a n) (token a)) :
    (keyParts part n as).1 = (number met (as.map token)).1 ∧
      NumbersMet s read (keyParts part n as).2 (number met (as.map token)).2 := by
  induction as generalizing n met with
  | nil => exact ⟨rfl, numbers⟩
  | cons a rest ih =>
    obtain ⟨first, after⟩ := each a (by simp) n met numbers
    obtain ⟨others, last⟩ := ih after fun b member => each b (List.mem_cons_of_mem a member)
    exact ⟨congrArg₂ _ first others, last⟩

end NumbersMet

/-! ### The code of callers -/

/-- The part for a register operand in the code of a caller: a register that the code has set itself
is looked up in its own list. -/
def State.boundPart (s : State) (top : Nat) (free : List (Int × Nat)) (n : Numbering) (a : Int) :
    KeyPart × Numbering :=
  match free.lookup a with
  | some k => (.variable k, n)
  | none => s.registerPart ((top : Int) + a) n

namespace Code

variable {code : Code} {s : State} {top pc : Nat} {free : List (Int × Nat)} {n : Numbering}

theorem continuationParts_ret (fetch : code.fetch? pc = some .ret) :
    code.continuationParts s top free n pc = ([], n) := by
  rw [continuationParts]
  split <;> simp_all

theorem continuationParts_call {label : String} (fetch : code.fetch? pc = some (.call label)) :
    code.continuationParts s top free n pc =
      (.goal label :: (code.continuationParts s top free n (pc + 1)).1,
        (code.continuationParts s top free n (pc + 1)).2) := by
  rw [continuationParts]
  split <;> simp_all

theorem continuationParts_pushConstant {c : String}
    (fetch : code.fetch? pc = some (.pushConstant c)) :
    code.continuationParts s top free n pc =
      (.constant c :: (code.continuationParts s top free n (pc + 1)).1,
        (code.continuationParts s top free n (pc + 1)).2) := by
  rw [continuationParts]
  split <;> simp_all

theorem continuationParts_pushFree {a : Int} (fetch : code.fetch? pc = some (.pushFree a)) :
    code.continuationParts s top free n pc =
      (.variable n.fresh.1 ::
          (code.continuationParts s top ((a, n.fresh.1) :: free) n.fresh.2 (pc + 1)).1,
        (code.continuationParts s top ((a, n.fresh.1) :: free) n.fresh.2 (pc + 1)).2) := by
  rw [continuationParts]
  split <;> simp_all

theorem continuationParts_pushBound {a : Int} (fetch : code.fetch? pc = some (.pushBound a)) :
    code.continuationParts s top free n pc =
      ((s.boundPart top free n a).1 ::
          (code.continuationParts s top free (s.boundPart top free n a).2 (pc + 1)).1,
        (code.continuationParts s top free (s.boundPart top free n a).2 (pc + 1)).2) := by
  rw [continuationParts]
  split <;> simp_all
  unfold State.boundPart
  cases free.lookup a <;> exact ⟨⟨rfl, rfl⟩, rfl⟩

end Code

/-- The key is read off the code of a caller up to where `seen` are the variables with a register:
those that the caller had, whose registers are in its window, and those that the code has introduced,
whose registers are in `free`. -/
structure Continuing (s : State) (read : Nat → Term) (next : Nat) (a : Activation)
    (seen : List Variable) (callers : List Activation) (free : List (Int × Nat)) (n : Numbering)
    (met : List Variable) : Prop where
  numbers : NumbersMet s read n met
  fresh : Fresh read s.heap.size next ({ a with seen } :: callers)
  unmet : ∀ x ∈ met, .var x ∉ ({ a with seen } :: callers).flatMap (·.unsetValues)
  known : ∀ v ∈ seen, v ∈ a.vars
  old : ∀ v ∈ a.seen, v ∈ seen ∧ free.lookup ((⟨a.vars⟩ : Registers).operand v) = none
  new : ∀ v ∈ seen, v ∉ a.seen → ∃ x, a.value v = .var x ∧ x ∈ met ∧
    free.lookup ((⟨a.vars⟩ : Registers).operand v) = some (met.idxOf x)

namespace Continuing

variable {code : Code} {s : State} {read : Nat → Term} {next top pc : Nat} {a : Activation}
  {seen : List Variable} {callers : List Activation} {free : List (Int × Nat)} {n : Numbering}
  {met : List Variable} {v : Variable}

/-- A term over cells is told. -/
private theorem tell (continuing : Continuing s read next a seen callers free n met) {t : Term}
    {n' : Numbering} (cells : ∀ x, t = .var x → ∃ i < s.heap.size, read i = .var x)
    (numbers : NumbersMet s read n' (Token.part met (.term t)).2) :
    Continuing s read next a seen callers free n' (Token.part met (.term t)).2 where
  numbers := numbers
  fresh := continuing.fresh
  unmet x member := by
    cases t with
    | constant c => exact continuing.unmet x member
    | var y =>
      obtain old | rfl := mem_meet.1 member
      · exact continuing.unmet x old
      · obtain ⟨i, inside, stands⟩ := cells x rfl
        intro unset
        obtain ⟨z, same, -, absent⟩ := continuing.fresh.free _ unset
        exact absent i inside (stands.trans same)
  known := continuing.known
  old := continuing.old
  new v inSeen introduced := by
    obtain ⟨x, isVar, inMet, looked⟩ := continuing.new v inSeen introduced
    refine ⟨x, isVar, Token.prefix_part.subset inMet, ?_⟩
    rw [looked, Token.prefix_part.idxOf_eq_of_mem inMet]

/-- A variable with a register is told. -/
private theorem tellBound (continuing : Continuing s read next a seen callers free n met)
    (reads : Reads s.heap read) (window : Window s.registers s.heap.size read top a)
    (inSeen : v ∈ seen) :
    (s.boundPart top free n ((⟨a.vars⟩ : Registers).operand v)).1 =
        (Token.part met (.term (a.value v))).1 ∧
      Continuing s read next a seen callers free
        (s.boundPart top free n ((⟨a.vars⟩ : Registers).operand v)).2
        (Token.part met (.term (a.value v))).2 := by
  unfold State.boundPart
  by_cases before : v ∈ a.seen
  · obtain ⟨known, cell, inside, held, stands⟩ := window.set v before
    have index : (top : Int) + (⟨a.vars⟩ : Registers).operand v = a.slot top v := by
      have room := window.room
      rw [Registers.operand_eq known, Activation.slot]
      omega
    rw [(continuing.old v before).2, ← stands]
    obtain ⟨part, numbers⟩ := continuing.numbers.registerPart reads index held inside
    exact ⟨part, continuing.tell (fun x isVar => ⟨cell, inside, isVar⟩) numbers⟩
  · obtain ⟨x, isVar, inMet, looked⟩ := continuing.new v inSeen before
    rw [looked, isVar]
    have same : meet met x = met := if_pos inMet
    simp only [Token.part, same]
    exact ⟨trivial, continuing⟩

/-- A variable that the code introduces is told. -/
private theorem tellFree (continuing : Continuing s read next a seen callers free n met)
    (nodup : a.vars.Nodup) (inVars : v ∈ a.vars) (unseen : v ∉ seen) :
    KeyPart.variable n.fresh.1 = (Token.part met (.term (a.value v))).1 ∧
      Continuing s read next a (v :: seen) callers
        (((⟨a.vars⟩ : Registers).operand v, n.fresh.1) :: free) n.fresh.2
        (Token.part met (.term (a.value v))).2 := by
  obtain ⟨x, isVar, -, absent, distinct, fresh⟩ := continuing.fresh.meet (v := v) nodup
    (Activation.mem_unset.2 ⟨inVars, unseen⟩)
  have isVar : a.value v = .var x := isVar
  -- what stands for the variable is met here for the first time, on both sides
  have unmet : x ∉ met := by
    intro member
    refine continuing.unmet x member (List.mem_flatMap.2 ⟨{ a with seen }, List.mem_cons_self, ?_⟩)
    exact List.mem_map.2 ⟨v, Activation.mem_unset.2 ⟨inVars, unseen⟩, isVar⟩
  obtain ⟨isNumber, numbers⟩ := continuing.numbers.fresh unmet absent
  have apartFrom : ∀ w ∈ a.vars, w ≠ v →
      (((⟨a.vars⟩ : Registers).operand v, n.fresh.1) :: free).lookup
        ((⟨a.vars⟩ : Registers).operand w) =
      free.lookup ((⟨a.vars⟩ : Registers).operand w) := by
    intro w known different
    rw [List.lookup_cons, beq_false_of_ne (mt (operand_inj known inVars).1 different)]
  rw [isVar]
  refine ⟨congrArg KeyPart.variable isNumber, numbers, fresh, fun y member => ?_, fun w member => ?_,
    fun w before => ?_, fun w member introduced => ?_⟩
  · obtain old | rfl := mem_meet.1 member
    · intro unset
      refine continuing.unmet y old ?_
      rw [List.flatMap_cons] at unset ⊢
      refine (List.mem_append.1 unset).elim (fun here => List.mem_append_left _ ?_)
        (List.mem_append_right _)
      obtain ⟨w, free, stands⟩ := List.mem_map.1 here
      obtain ⟨known, notSeen⟩ := Activation.mem_unset.1 free
      exact List.mem_map.2 ⟨w, Activation.mem_unset.2 ⟨known, fun h =>
        notSeen (List.mem_cons_of_mem v h)⟩, stands⟩
    · exact distinct
  · obtain _ | ⟨_, later⟩ := member
    · exact inVars
    · exact continuing.known w later
  · obtain ⟨inSeen, looked⟩ := continuing.old w before
    refine ⟨List.mem_cons_of_mem v inSeen, ?_⟩
    rw [apartFrom w (continuing.known w inSeen) fun same => unseen (same ▸ inSeen), looked]
  · by_cases same : w = v
    · subst same
      refine ⟨x, isVar, mem_meet.2 (.inr rfl), ?_⟩
      rw [List.lookup_cons, beq_self_eq_true, isNumber]
      rfl
    · have inSeen := List.mem_of_ne_of_mem same member
      obtain ⟨y, isY, inMet, looked⟩ := continuing.new w inSeen introduced
      refine ⟨y, isY, mem_meet.2 (.inl inMet), ?_⟩
      rw [apartFrom w (continuing.known w inSeen) same, looked]
      exact congrArg some (NumbersMet.idxOf_meet inMet).symm

/-- Reading a line of a caller's code tells tokens, and goes on behind it. -/
def TellsLine (code : Code) (s : State) (read : Nat → Term) (next top pc : Nat) (a : Activation)
    (callers : List Activation) (free : List (Int × Nat)) (n : Numbering) (met : List Variable)
    (compiled : List Instruction × List Variable) (tokens : List Token) : Prop :=
  ∃ free' n',
    code.continuationParts s top free n pc =
      ((number met tokens).1 ++
          (code.continuationParts s top free' n' (pc + compiled.1.length)).1,
        (code.continuationParts s top free' n' (pc + compiled.1.length)).2) ∧
    Continuing s read next a compiled.2 callers free' n' (number met tokens).2

/-- An instruction in front of a line. -/
private theorem tellsLine_cons {i : Instruction} {rest : List Instruction × List Variable}
    {free' : List (Int × Nat)} {n' : Numbering} {t : Token} {tokens : List Token} {part : KeyPart}
    (first : code.continuationParts s top free n pc =
      (part :: (code.continuationParts s top free' n' (pc + 1)).1,
        (code.continuationParts s top free' n' (pc + 1)).2))
    (isPart : part = (t.part met).1)
    (others : TellsLine code s read next top (pc + 1) a callers free' n' (t.part met).2 rest tokens) :
    TellsLine code s read next top pc a callers free n met (i :: rest.1, rest.2) (t :: tokens) := by
  obtain ⟨free'', n'', told, last⟩ := others
  refine ⟨free'', n'', ?_, last⟩
  rw [first, told, isPart, List.length_cons, Nat.add_right_comm, Nat.add_assoc]
  rfl

/-- The parts for pushed arguments are those of the terms that they stand for. -/
private theorem tellArgs (continuing : Continuing s read next a seen callers free n met)
    (reads : Reads s.heap read) (window : Window s.registers s.heap.size read top a)
    {terms : List Term} {behind : List Instruction} (known : ∀ v, .var v ∈ terms → v ∈ a.vars)
    (placed : code.HasAt pc ((compileArgs ⟨a.vars⟩ seen terms).1 ++ behind)) :
    TellsLine code s read next top pc a callers free n met (compileArgs ⟨a.vars⟩ seen terms)
      (terms.map fun t => .term (t.mapVariable a.value)) := by
  induction terms generalizing seen free n met pc with
  | nil => exact ⟨free, n, rfl, continuing⟩
  | cons t rest ih =>
    have knownRest : ∀ v, .var v ∈ rest → v ∈ a.vars :=
      fun v member => known v (List.mem_cons_of_mem t member)
    cases t with
    | constant c =>
      have compiled : compileArgs ⟨a.vars⟩ seen (.constant c :: rest) =
          (.pushConstant c :: (compileArgs ⟨a.vars⟩ seen rest).1,
            (compileArgs ⟨a.vars⟩ seen rest).2) := rfl
      rw [compiled] at placed ⊢
      exact tellsLine_cons (Code.continuationParts_pushConstant placed.fetch) rfl
        (ih continuing knownRest placed.tail)
    | var v =>
      have inVars := known v (by simp)
      by_cases inSeen : v ∈ seen
      · have compiled : compileArgs ⟨a.vars⟩ seen (.var v :: rest) =
            (.pushBound ((⟨a.vars⟩ : Registers).operand v) :: (compileArgs ⟨a.vars⟩ seen rest).1,
              (compileArgs ⟨a.vars⟩ seen rest).2) := by rw [compileArgs, if_pos inSeen]
        rw [compiled] at placed ⊢
        obtain ⟨part, after⟩ := continuing.tellBound reads window inSeen
        exact tellsLine_cons (Code.continuationParts_pushBound placed.fetch) part
          (ih after knownRest placed.tail)
      · have compiled : compileArgs ⟨a.vars⟩ seen (.var v :: rest) =
            (.pushFree ((⟨a.vars⟩ : Registers).operand v) ::
                (compileArgs ⟨a.vars⟩ (v :: seen) rest).1,
              (compileArgs ⟨a.vars⟩ (v :: seen) rest).2) := by rw [compileArgs, if_neg inSeen]
        rw [compiled] at placed ⊢
        obtain ⟨part, after⟩ := continuing.tellFree window.nodup inVars inSeen
        exact tellsLine_cons (Code.continuationParts_pushFree placed.fetch) part
          (ih after knownRest placed.tail)

/-- The parts for the goals that a caller goes on with. -/
private theorem tellGoals (code : Code) (continuing : Continuing s read next a seen callers free n met)
    (reads : Reads s.heap read) (window : Window s.registers s.heap.size read top a)
    {goals : List Goal} (known : ∀ g ∈ goals, ∀ v ∈ g.vars, v ∈ a.vars)
    (placed : code.HasAt pc ((compileGoals ⟨a.vars⟩ seen goals).1 ++ [.ret])) :
    ∃ seen' free' n',
      code.continuationParts s top free n pc =
        ((number met (goals.flatMap fun g => (g.mapVariables a.value).tokens)).1, n') ∧
      Continuing s read next a seen' callers free' n'
        (number met (goals.flatMap fun g => (g.mapVariables a.value).tokens)).2 := by
  induction goals generalizing seen free n met pc with
  | nil => exact ⟨seen, free, n, Code.continuationParts_ret placed.fetch, continuing⟩
  | cons g rest ih =>
    have compiled : (compileGoals ⟨a.vars⟩ seen (g :: rest)).1 ++ [.ret] =
        (compileArgs ⟨a.vars⟩ seen g.args).1 ++ (.call g.label ::
          ((compileGoals ⟨a.vars⟩ (compileArgs ⟨a.vars⟩ seen g.args).2 rest).1 ++ [.ret])) := by
      simp [compileGoals]
    rw [compiled] at placed
    obtain ⟨free₁, n₁, args, continuing₁⟩ := continuing.tellArgs reads window
      (fun v member => known g (by simp) v (Goal.mem_vars.2 member)) placed
    obtain ⟨seen₂, free₂, n₂, goals, continuing₂⟩ := ih continuing₁
      (fun h member => known h (List.mem_cons_of_mem g member)) placed.right.tail
    have tokens : ((g :: rest).flatMap fun g => (g.mapVariables a.value).tokens) =
        g.args.map (fun t => .term (t.mapVariable a.value)) ++ (.goal g.label ::
          rest.flatMap fun g => (g.mapVariables a.value).tokens) := by
      simp [Goal.tokens, Goal.mapVariables, ← Goal.label_mapVariables a.value g]
    refine ⟨seen₂, free₂, n₂, ?_, ?_⟩
    · rw [args, Code.continuationParts_call placed.right.fetch, goals, tokens, Token.number_append]
      rfl
    · rw [tokens, Token.number_append]
      exact continuing₂

end Continuing

/-- The parts for all callers are those of the goals that they go on with. -/
theorem Callers.callerParts_eq {code : Code} {s : State} {read : Nat → Term} {next limit : Nat}
    {frames : List Frame} {activations : List Activation} {root : Root} {answer : List Term}
    {silent : List Variable} {n : Numbering} {met : List Variable}
    (valid : Callers code s.registers s.heap.size read limit frames activations)
    (reads : Reads s.heap read) (fresh : Fresh read s.heap.size next activations)
    (rooted : Rooted root answer silent activations) (noClosing : root.closing = none)
    (numbers : NumbersMet s read n met)
    (unmet : ∀ x ∈ met, .var x ∉ activations.flatMap (·.unsetValues)) :
    code.callerParts s n frames =
      (number met ((activations.flatMap (·.resolved)).flatMap Goal.tokens)).1 := by
  induction valid generalizing n met with
  | nil => rfl
  | @cons _ f a frames callers _ window continues rest ih =>
    obtain ⟨known, ending, compiled, placed⟩ := continues
    -- no activation of a query closes with a feature, so that its code ends with its goals
    have closing : a.closing = none := by
      cases callers with
      | nil => exact rooted.2.1.trans noClosing
      | cons b callers => exact rooted.1
    rw [closing] at compiled
    cases compiled
    have continuing : Continuing s read next a a.seen callers [] n met :=
      ⟨numbers, fresh, unmet, fun v seen => (window.set v seen).1, fun v seen => ⟨seen, rfl⟩,
        fun v seen unseen => absurd seen unseen⟩
    obtain ⟨seen', free', n', parts, continuing'⟩ :=
      continuing.tellGoals code reads window known placed
    have tokens : (a.goals.flatMap fun g => (g.mapVariables a.value).tokens) =
        a.resolved.flatMap Goal.tokens := by
      rw [Activation.resolved, List.flatMap_map]
    rw [Code.callerParts, parts, List.flatMap_cons, List.flatMap_append, Token.number_append,
      ← tokens]
    change (number met _).1 ++ code.callerParts s n' frames = (number met _).1 ++ (number _ _).1
    refine congrArg (_ ++ ·) ?_
    cases rest with
    | nil => rfl
    | @cons _ f' b frames' callers' below window' continues' rest' =>
      exact ih fresh.tail rooted.2 continuing'.numbers fun x member unset =>
        continuing'.unmet x member (List.flatMap_cons ▸ List.mem_append_right _ unset)

/-! ### The key -/

section Root

variable {code : Code} {root : Root} {read : Nat → Term} {s : State} {r : Resolvent}
  {silent : List Variable}

/-- The parts for the lowest window are those of the answer, where the variables without a register
are left open. -/
theorem Window.answerParts_eq {b : Activation} (window : Window s.registers s.heap.size read
    b.vars.length b) (vars : b.vars = root.vars) (answer : b.vars.map b.value = r.answer)
    (unset : b.unset = silent) (reads : Reads s.heap read) :
    let tokens := root.vars.map fun v =>
      if v ∈ silent then Token.unset else .term (r.value root v)
    (keyParts (fun i : Nat => s.registerPart i) .empty (List.range b.vars.length)).1 =
        (number [] tokens).1 ∧
      NumbersMet s read (keyParts (fun i : Nat => s.registerPart i) .empty
        (List.range b.vars.length)).2 (number [] tokens).2 := by
  have slot : ∀ v, b.slot b.vars.length v = b.vars.idxOf v := fun v => by
    rw [Activation.slot, Nat.sub_self, Nat.zero_add]
  -- the registers are gone through by their variables
  have none : NumbersMet s read .empty [] := .empty
  have told := none.keyParts (fun v : Variable => s.registerPart (b.vars.idxOf v : Nat))
    (fun v => if v ∈ silent then .unset else .term (r.value root v)) b.vars
    (fun v known n met numbers => ?_)
  · rw [← vars]
    have same : ∀ (n : Numbering) (vs : List Variable),
        keyParts (fun i : Nat => s.registerPart i) n (vs.map b.vars.idxOf) =
          keyParts (fun v => s.registerPart (b.vars.idxOf v : Nat)) n vs := by
      intro n vs
      induction vs generalizing n with
      | nil => rfl
      | cons v vs ih => simp only [List.map_cons, keyParts, ih]
    rwa [← map_idxOf_eq_range window.nodup, same]
  · rw [Resolvent.value_eq (vars ▸ answer) (vars ▸ known)]
    by_cases seen : v ∈ b.seen
    · obtain ⟨-, cell, inside, held, stands⟩ := window.set v seen
      rw [slot] at held
      rw [if_neg fun isSilent => (Activation.mem_unset.1 (unset ▸ isSilent)).2 seen, ← stands]
      exact numbers.registerPart reads rfl held inside
    · have free : v ∈ b.unset := Activation.mem_unset.2 ⟨known, seen⟩
      have held := window.unset v free
      rw [slot] at held
      rw [if_pos (unset ▸ free)]
      have open_ : s.registerPart (b.vars.idxOf v : Nat) n = (.unset, n) := by
        simp [State.registerPart, held]
      rw [open_]
      exact ⟨rfl, numbers⟩

/-- A variable that is met occurs in a token. -/
theorem mem_number {x : Variable} {met : List Variable} {ts : List Token}
    (member : x ∈ (number met ts).2) : x ∈ met ∨ .term (.var x) ∈ ts := by
  induction ts generalizing met with
  | nil => exact .inl member
  | cons t ts ih =>
    obtain here | later := ih member
    · cases t with
      | term t =>
        cases t with
        | constant c => exact .inl here
        | var v =>
          obtain old | rfl := mem_meet.1 here
          · exact .inl old
          · exact .inr List.mem_cons_self
      | _ => exact .inl here
    · exact .inr (List.mem_cons_of_mem t later)

/-- The parts for the arguments of the pending call. -/
private theorem Waiting.argParts_eq {activations : List Activation}
    (waiting : Waiting code root read activations s r silent) {g : Goal} {rest : List Goal}
    (goals : r.goals = g :: rest) {n : Numbering} {met : List Variable}
    (numbers : NumbersMet s read n met) :
    let cells := (List.range g.arity).map fun i => s.heap.size - g.arity + i
    (keyParts s.cellPart n cells).1 = (number met (g.args.map .term)).1 ∧
      NumbersMet s read (keyParts s.cellPart n cells).2 (number met (g.args.map .term)).2 := by
  obtain ⟨g', isGoals, -, inside, args⟩ := waiting.goal
  obtain ⟨rfl, -⟩ : g = g' ∧ rest = _ := List.cons.inj (goals.symm.trans isGoals)
  have tokens : ((List.range g.arity).map fun i => s.heap.size - g.arity + i).map
      (fun i => Token.term (read i)) = g.args.map .term := by
    refine List.ext_getElem (by simp [Goal.arity]) fun i left right => ?_
    have bound : i < g.args.length := by simpa using right
    simp only [List.getElem_map, List.getElem_range]
    rw [args i _ (List.getElem?_eq_getElem bound)]
  have told := numbers.keyParts s.cellPart (fun i => .term (read i))
    ((List.range g.arity).map fun i => s.heap.size - g.arity + i) fun i member n met numbers => by
      obtain ⟨k, small, rfl⟩ := List.mem_map.1 member
      have below := List.mem_range.1 small
      exact numbers.cellPart waiting.reads (by omega)
  rwa [tokens] at told

/-- The key of a state is the canonical form of its resolvent. -/
theorem Represents.key_eq (represents : Represents code root s r silent)
    (noClosing : root.closing = none) (floor : s.floor = root.vars.length)
    (count : code.queryRegisters = root.vars.length)
    (fits : ∀ g rest, r.goals = g :: rest → g.arity < Text.wordLimit) :
    code.key s = { parts := (number [] (r.tokens root silent)).1 } := by
  obtain ⟨read, activations, waiting⟩ | ⟨read, a, solved⟩ := represents
  · obtain ⟨g, goals, pending, inside, args⟩ := waiting.goal
    obtain ⟨b, member, window, vars, answer, unset⟩ := waiting.rootWindow
    rw [floor, ← vars] at window
    obtain ⟨answerParts, numbers⟩ := window.answerParts_eq vars answer unset waiting.reads
    obtain ⟨argParts, numbers'⟩ := waiting.argParts_eq goals numbers
    have arity : min (labelArity g.label) s.heap.size = g.arity := by
      rw [Goal.labelArity_label (fits g _ goals)]
      omega
    -- what has been met so far stands in cells
    have cells : ∀ x, .term (.var x) ∈ (root.vars.map fun v =>
          if v ∈ silent then Token.unset else .term (r.value root v)) ++ g.args.map .term →
        ∃ i < s.heap.size, read i = .var x := by
      intro x inTokens
      obtain inAnswer | inArgs := List.mem_append.1 inTokens
      · obtain ⟨v, known, isToken⟩ := List.mem_map.1 inAnswer
        split at isToken
        · cases isToken
        · rename_i said
          have seen : v ∈ b.seen := by
            by_contra unseen
            exact said (unset ▸ Activation.mem_unset.2 ⟨vars ▸ known, unseen⟩)
          obtain ⟨-, cell, bound, -, stands⟩ := window.set v seen
          rw [Resolvent.value_eq (vars ▸ answer) known] at isToken
          exact ⟨cell, bound, stands.trans (Token.term.inj isToken)⟩
      · obtain ⟨t, inGoal, isToken⟩ := List.mem_map.1 inArgs
        obtain ⟨k, found⟩ := List.mem_iff_getElem?.1 inGoal
        have bound := (List.getElem?_eq_some_iff.1 found).1
        refine ⟨s.heap.size - g.arity + k, ?_, (args k t found).trans (Token.term.inj isToken)⟩
        change k < g.arity at bound
        omega
    have unmet : ∀ x ∈ (number (number [] (root.vars.map fun v =>
          if v ∈ silent then Token.unset else .term (r.value root v))).2 (g.args.map .term)).2,
        .var x ∉ activations.flatMap (·.unsetValues) := by
      intro x met free
      have inTokens : x ∈ (number [] ((root.vars.map fun v =>
          if v ∈ silent then Token.unset else .term (r.value root v)) ++ g.args.map .term)).2 := by
        rw [Token.number_append]
        exact met
      obtain ⟨i, bound, stands⟩ := cells x ((mem_number inTokens).resolve_left (by simp))
      obtain ⟨y, isY, -, absent⟩ := waiting.fresh.free _ free
      exact absent i bound (stands.trans isY)
    have callers := waiting.callers.callerParts_eq waiting.reads waiting.fresh waiting.rooted
      noClosing numbers' unmet
    rw [Code.key, waiting.completed, waiting.failed, pending, count, ← vars]
    simp only [arity]
    rw [Resolvent.tokens, goals, Token.number_append, Token.number_append]
    simp only [List.isEmpty_cons, Bool.false_eq_true, if_false, List.nil_append, number,
      Token.part, Token.number_append]
    rw [answerParts, argParts, callers, List.append_assoc, List.cons_append]
  · obtain ⟨window, vars, answer, unset⟩ := solved.rootWindow
    rw [floor, ← vars] at window
    obtain ⟨answerParts, -⟩ := window.answerParts_eq vars answer unset solved.reads
    rw [Code.key, solved.completed, solved.failed, solved.pending, solved.calls, count, ← vars]
    simp only
    rw [answerParts, Resolvent.tokens, solved.goals, Code.callerParts]
    simp [number, Token.part]

end Root

end ProofWalk
