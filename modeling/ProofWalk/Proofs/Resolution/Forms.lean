import ProofWalk.Machine.Key
import ProofWalk.Proofs.Logic.Labels
import ProofWalk.Proofs.Logic.Variables
import ProofWalk.Proofs.Resolution.Moves

/-!
# Canonical forms

The canonical form of a resolvent lists its answer and its goals with the variables numbered in the
order in which they are met. Variables of the root without a register are left open in the answer;
they are numbered where a goal mentions them.

Two resolvents of one form are equal up to the renaming that pairs their variables by number.

## Main definitions

* `Token.number` — the parts of a key for a list of tokens
* `Resolvent.tokens` — what the canonical form of a resolvent lists
* `align` — the renaming that pairs variables by number

## Main results

* `number_inj`, `number_rename` — lists of tokens with equal numberings are renamings of each other, and
  the other way round
* `Resolvent.tokens_inj` — a resolvent can be read back from its tokens
* `Resolvent.map_rename_tokens` — the tokens of a renamed resolvent
-/

namespace ProofWalk

/-- A part of a canonical form before its variables are numbered. -/
inductive Token where
  | completed
  | unset
  | goal (label : String)
  | term (t : Term)

/-- The variables met so far with one more. -/
def meet (met : List Variable) (v : Variable) : List Variable := if v ∈ met then met else met ++ [v]

theorem mem_meet {met : List Variable} {v w : Variable} : w ∈ meet met v ↔ w ∈ met ∨ w = v := by
  unfold meet
  split
  · rename_i known
    exact ⟨.inl, fun either => either.elim id fun same => same ▸ known⟩
  · simp

theorem prefix_meet (met : List Variable) (v : Variable) : met <+: meet met v := by
  unfold meet
  split
  · exact List.prefix_rfl
  · exact List.prefix_append met [v]

theorem nodup_meet {met : List Variable} (nodup : met.Nodup) (v : Variable) : (meet met v).Nodup := by
  unfold meet
  split
  · exact nodup
  · rename_i unmet
    exact nodup.append (List.nodup_singleton v) (List.disjoint_singleton.2 unmet)

theorem idxOf_meet_self {met : List Variable} {v : Variable} (unmet : v ∉ met) :
    (meet met v).idxOf v = met.length := by
  rw [meet, if_neg unmet, List.idxOf_append_of_notMem unmet, List.idxOf_cons_self, Nat.add_zero]

/-- The substitution that renames variables. -/
abbrev Substitution.ofVariables (ρ : Variable → Variable) : Substitution := fun v => .var (ρ v)

namespace Token

/-- The part of a key for a token, and the variables met behind it. -/
def part (met : List Variable) : Token → KeyPart × List Variable
  | completed => (.completed, met)
  | unset => (.unset, met)
  | goal label => (.goal label, met)
  | term (.constant c) => (.constant c, met)
  | term (.var v) => (.variable ((meet met v).idxOf v), meet met v)

/-- The parts of a key for tokens, and the variables met behind them. -/
def number (met : List Variable) : List Token → List KeyPart × List Variable
  | [] => ([], met)
  | t :: rest =>
    ((t.part met).1 :: (number (t.part met).2 rest).1, (number (t.part met).2 rest).2)

/-- A token with its variable renamed. -/
def rename (ρ : Variable → Variable) : Token → Token
  | term t => term (t.mapVariable (Substitution.ofVariables ρ))
  | t => t

variable {met : List Variable} {t : Token} {ts ts' : List Token}

theorem number_append :
    number met (ts ++ ts') =
      ((number met ts).1 ++ (number (number met ts).2 ts').1, (number (number met ts).2 ts').2) := by
  induction ts generalizing met with
  | nil => rfl
  | cons t ts ih => simp only [List.cons_append, number, ih]

theorem prefix_part : met <+: (t.part met).2 := by
  unfold part
  split
  case h_5 => exact prefix_meet met _
  all_goals exact List.prefix_rfl

theorem prefix_number : met <+: (number met ts).2 := by
  induction ts generalizing met with
  | nil => exact List.prefix_rfl
  | cons t ts ih => exact prefix_part.trans ih

theorem nodup_part (nodup : met.Nodup) : (t.part met).2.Nodup := by
  unfold part
  split
  case h_5 => exact nodup_meet nodup _
  all_goals exact nodup

end Token

/-- The variable of the second list with the number that a variable has in the first one. -/
def align (met met' : List Variable) (v : Variable) : Variable := (met'[met.idxOf v]?).getD v

theorem align_eq {met met' : List Variable} {v w : Variable} (index : met.idxOf v = met'.idxOf w)
    (known : w ∈ met') : align met met' v = w := by
  rw [align, index, List.getElem?_idxOf known, Option.getD_some]

/-- What has been paired stays paired when more variables are met. -/
theorem align_of_prefix {met met' later later' : List Variable} {v w : Variable}
    (before : met <+: later) (before' : met' <+: later') (known : v ∈ met) (known' : w ∈ met')
    (index : met.idxOf v = met'.idxOf w) : align later later' v = w := by
  refine align_eq ?_ (before'.subset known')
  rw [← before.idxOf_eq_of_mem known, ← before'.idxOf_eq_of_mem known', index]

namespace Token

variable {met met' : List Variable} {t t' : Token}

/-- Tokens of equal parts are paired. -/
theorem part_inj (length : met.length = met'.length) (same : (t.part met).1 = (t'.part met').1) :
    (t.part met).2.length = (t'.part met').2.length ∧
      ∀ later later', (t.part met).2 <+: later → (t'.part met').2 <+: later' →
        t.rename (align later later') = t' := by
  match t, t' with
  | completed, completed | unset, unset => exact ⟨length, fun _ _ _ _ => rfl⟩
  | goal l, goal l' =>
    cases same
    exact ⟨length, fun _ _ _ _ => rfl⟩
  | term (.constant c), term (.constant c') =>
    cases same
    exact ⟨length, fun _ _ _ _ => rfl⟩
  | term (.var v), term (.var w) =>
    have index : (meet met v).idxOf v = (meet met' w).idxOf w := KeyPart.variable.inj same
    constructor
    · change (meet met v).length = (meet met' w).length
      -- a number below the count of variables is an old one
      have old : ∀ {met : List Variable} {v : Variable}, v ∈ met →
          (meet met v).idxOf v < met.length := fun {met v} known => by
        rw [meet, if_pos known]
        exact List.idxOf_lt_length_of_mem known
      by_cases known : v ∈ met <;> by_cases known' : w ∈ met'
      · rw [meet, meet, if_pos known, if_pos known', length]
      · have := old known
        rw [index, idxOf_meet_self known'] at this
        omega
      · have := old known'
        rw [← index, idxOf_meet_self known] at this
        omega
      · rw [meet, meet, if_neg known, if_neg known', List.length_append, List.length_append, length]
        rfl
    · intro later later' before before'
      have paired := align_of_prefix before before' (mem_meet.2 (.inr rfl)) (mem_meet.2 (.inr rfl))
        index
      exact congrArg (fun v => term (.var v)) paired
  | completed, unset | completed, goal _ | completed, term (.constant _) | completed, term (.var _)
  | unset, completed | unset, goal _ | unset, term (.constant _) | unset, term (.var _)
  | goal _, completed | goal _, unset | goal _, term (.constant _) | goal _, term (.var _)
  | term (.constant _), completed | term (.constant _), unset | term (.constant _), goal _
  | term (.constant _), term (.var _) | term (.var _), completed | term (.var _), unset
  | term (.var _), goal _ | term (.var _), term (.constant _) => cases same

/-- Lists of tokens with equal numberings are renamings of each other. -/
theorem number_inj {ts ts' : List Token} (length : met.length = met'.length)
    (same : (number met ts).1 = (number met' ts').1) :
    (number met ts).2.length = (number met' ts').2.length ∧
      ts.map (rename (align (number met ts).2 (number met' ts').2)) = ts' := by
  induction ts generalizing met met' ts' with
  | nil =>
    cases ts' with
    | nil => exact ⟨length, rfl⟩
    | cons t' ts' => cases same
  | cons t ts ih =>
    cases ts' with
    | nil => cases same
    | cons t' ts' =>
      obtain ⟨first, rest⟩ := List.cons.inj same
      obtain ⟨lengthFirst, paired⟩ := part_inj length first
      obtain ⟨lengthRest, others⟩ := ih lengthFirst rest
      refine ⟨lengthRest, ?_⟩
      rw [List.map_cons]
      exact congrArg₂ _ (paired _ _ prefix_number prefix_number) others

/-- A renaming that keeps variables apart changes no number. -/
theorem number_rename {ρ : Variable → Variable} (injective : Function.Injective ρ)
    (met : List Variable) (ts : List Token) :
    number (met.map ρ) (ts.map (rename ρ)) = ((number met ts).1, (number met ts).2.map ρ) := by
  have index (met : List Variable) (v : Variable) : (met.map ρ).idxOf (ρ v) = met.idxOf v := by
    induction met with
    | nil => rfl
    | cons w met ih => simp only [List.map_cons, List.idxOf_cons, ih, beq_eq_decide, injective.eq_iff]
  have renamed (met : List Variable) (v : Variable) : meet (met.map ρ) (ρ v) = (meet met v).map ρ := by
    unfold meet
    simp only [List.mem_map_of_injective injective]
    split
    · rfl
    · rw [List.map_append, List.map_singleton]
  have part (met : List Variable) (t : Token) :
      (t.rename ρ).part (met.map ρ) = ((t.part met).1, (t.part met).2.map ρ) := by
    match t with
    | term (.var v) =>
      change (KeyPart.variable ((meet (met.map ρ) (ρ v)).idxOf (ρ v)), meet (met.map ρ) (ρ v)) = _
      rw [renamed, index]
      rfl
    | term (.constant c) | completed | unset | goal l => rfl
  induction ts generalizing met with
  | nil => rfl
  | cons t ts ih => rw [List.map_cons, number, part, ih, number]

end Token

/-! ### The tokens of a resolvent -/

open Token in
/-- What a goal behind the leftmost one contributes: its arguments, then its predicate. -/
def Goal.tokens (g : Goal) : List Token := g.args.map term ++ [goal g.label]

namespace Resolvent

open Token

/-- What the canonical form of a resolvent lists: the answer, the leftmost goal, and the others. -/
def tokens (r : Resolvent) (root : Root) (silent : List Variable) : List Token :=
  (if r.goals.isEmpty then [completed] else []) ++
    (root.vars.map (fun v => if v ∈ silent then unset else term (r.value root v)) ++
      match r.goals with
      | [] => []
      | g :: rest => goal g.label :: (g.args.map term ++ rest.flatMap Goal.tokens))

end Resolvent

namespace Token

variable {ρ : Variable → Variable}

@[simp] theorem map_rename_terms (ts : List Term) :
    (ts.map term).map (rename ρ) = (ts.map (·.mapVariable (Substitution.ofVariables ρ))).map term := by
  rw [List.map_map, List.map_map]
  rfl

@[simp] theorem map_rename_tokens (g : Goal) :
    g.tokens.map (rename ρ) = (g.mapVariables (Substitution.ofVariables ρ)).tokens := by
  rw [Goal.tokens, List.map_append, map_rename_terms, Goal.tokens, Goal.label_mapVariables]
  rfl

theorem map_rename_flatMap (gs : List Goal) :
    (gs.flatMap Goal.tokens).map (rename ρ) =
      (gs.map (·.mapVariables (Substitution.ofVariables ρ))).flatMap Goal.tokens := by
  rw [List.map_flatMap, List.flatMap_map]
  exact List.flatMap_congr fun g _ => map_rename_tokens g

theorem map_term_injective : Function.Injective (List.map term) :=
  List.map_injective_iff.2 fun _ _ same => term.inj same

/-- Terms in front of a label can be read off. -/
theorem terms_append_inj {as bs : List Term} {l l' : String} {ts ts' : List Token}
    (same : as.map term ++ goal l :: ts = bs.map term ++ goal l' :: ts') :
    as = bs ∧ l = l' ∧ ts = ts' := by
  induction as generalizing bs with
  | nil =>
    cases bs with
    | nil =>
      obtain ⟨label, rest⟩ := List.cons.inj same
      exact ⟨rfl, goal.inj label, rest⟩
    | cons b bs => cases (List.cons.inj same).1
  | cons a as ih =>
    cases bs with
    | nil => cases (List.cons.inj same).1
    | cons b bs =>
      obtain ⟨first, rest⟩ := List.cons.inj same
      obtain ⟨equal, labels, others⟩ := ih rest
      exact ⟨congrArg₂ _ (term.inj first) equal, labels, others⟩

theorem goal_eq {g h : Goal} (args : g.args = h.args) (label : g.label = h.label) : g = h := by
  obtain ⟨functor, -⟩ := Goal.label_eq_iff.1 label
  cases g
  cases h
  cases functor
  cases args
  rfl

/-- Goals can be read off their tokens. -/
theorem flatMap_tokens_inj {gs hs : List Goal}
    (same : gs.flatMap Goal.tokens = hs.flatMap Goal.tokens) : gs = hs := by
  induction gs generalizing hs with
  | nil =>
    cases hs with
    | nil => rfl
    | cons h hs => simp [Goal.tokens] at same
  | cons g gs ih =>
    cases hs with
    | nil => simp [Goal.tokens] at same
    | cons h hs =>
      simp only [List.flatMap_cons, Goal.tokens, List.append_assoc, List.singleton_append] at same
      obtain ⟨args, label, rest⟩ := terms_append_inj same
      exact congrArg₂ _ (goal_eq args label) (ih rest)

end Token

open Token in
/-- The tokens of a resolvent without goals begin with its end, and no others do. -/
theorem Resolvent.head_tokens {r : Resolvent} {root : Root} {silent : List Variable} :
    (r.tokens root silent).head? = some completed ↔ r.goals = [] := by
  unfold tokens
  cases r.goals with
  | nil => simp
  | cons g rest =>
    cases root.vars with
    | nil => simp
    | cons v vs => by_cases unmet : v ∈ silent <;> simp [unmet]

open Token in
/-- A resolvent can be read back from its tokens, but for the variables without a register. -/
theorem Resolvent.tokens_inj {r r' : Resolvent} {root : Root} {silent silent' : List Variable}
    {ρ : Variable → Variable}
    (same : (r.tokens root silent).map (rename ρ) = r'.tokens root silent') :
    r.goals.map (·.mapVariables (Substitution.ofVariables ρ)) = r'.goals ∧
      (∀ v ∈ root.vars, v ∈ silent ↔ v ∈ silent') ∧
      ∀ v ∈ root.vars, v ∉ silent →
        (r.value root v).mapVariable (Substitution.ofVariables ρ) = r'.value root v := by
  have answers : root.vars.map (rename ρ ∘ fun v => if v ∈ silent then unset else term (r.value root v)) =
        root.vars.map (fun v => if v ∈ silent' then unset else term (r'.value root v)) →
      (∀ v ∈ root.vars, v ∈ silent ↔ v ∈ silent') ∧
        ∀ v ∈ root.vars, v ∉ silent →
          (r.value root v).mapVariable (Substitution.ofVariables ρ) = r'.value root v := by
    intro equal
    have each := List.map_inj_left.1 equal
    refine ⟨fun v known => ?_, fun v known said => ?_⟩ <;> have here := each v known <;>
      rw [Function.comp_apply] at here
    · by_cases left : v ∈ silent <;> by_cases right : v ∈ silent' <;>
        simp_all [rename]
    · rw [if_neg said] at here
      split at here
      · cases here
      · exact term.inj here
  -- the first token tells whether goals are left
  have ends : r.goals = [] ↔ r'.goals = [] := by
    have left : (r.tokens root silent).head? = some completed ↔ r.goals = [] := head_tokens
    have right : (r'.tokens root silent').head? = some completed ↔ r'.goals = [] := head_tokens
    rw [← left, ← right, ← same, List.head?_map]
    cases (r.tokens root silent).head? with
    | none => rfl
    | some t => cases t <;> simp [rename]
  cases goals : r.goals with
  | nil =>
    cases goals' : r'.goals with
    | nil =>
      simp only [tokens, goals, goals', List.isEmpty_nil, if_true, List.append_nil,
        List.map_append, List.map_map] at same
      exact ⟨rfl, answers (List.append_cancel_left same)⟩
    | cons g' rest' =>
      rw [ends.1 goals] at goals'
      cases goals'
  | cons g rest =>
    cases goals' : r'.goals with
    | nil =>
      rw [ends.2 goals'] at goals
      cases goals
    | cons g' rest' =>
      simp only [tokens, goals, goals', List.isEmpty_cons, Bool.false_eq_true, if_false,
        List.nil_append, List.map_append, List.map_cons, List.map_map] at same
      obtain ⟨answer, others⟩ := List.append_inj same (by simp)
      obtain ⟨first, others⟩ := List.cons.inj others
      have label : g.label = g'.label := goal.inj first
      have arity : g.args.length = g'.args.length := (Goal.label_eq_iff.1 label).2
      obtain ⟨args, others⟩ := List.append_inj others (by simpa using arity)
      rw [← List.map_map, map_rename_terms] at args
      rw [map_rename_flatMap] at others
      refine ⟨?_, answers answer⟩
      rw [List.map_cons, flatMap_tokens_inj others]
      refine congrArg (· :: rest') (goal_eq (map_term_injective args) ?_)
      rw [Goal.label_mapVariables, label]

open Token in
/-- The tokens of a renamed resolvent are the renamed tokens. -/
theorem Resolvent.map_rename_tokens {r r' : Resolvent} {root : Root} {silent : List Variable}
    {ρ : Variable → Variable} (goals : r.goals.map (·.mapVariables (Substitution.ofVariables ρ)) = r'.goals)
    (values : ∀ v ∈ root.vars, (r.value root v).mapVariable (Substitution.ofVariables ρ) = r'.value root v) :
    (r.tokens root silent).map (rename ρ) = r'.tokens root silent := by
  have answer : (root.vars.map fun v => if v ∈ silent then unset else term (r.value root v)).map (rename ρ) =
      root.vars.map fun v => if v ∈ silent then unset else term (r'.value root v) := by
    rw [List.map_map]
    refine List.map_congr_left fun v known => ?_
    rw [Function.comp_apply]
    split
    · rfl
    · exact congrArg term (values v known)
  unfold tokens
  rw [← goals, List.map_append, List.map_append, answer]
  cases r.goals with
  | nil => rfl
  | cons g rest =>
    simp only [List.map_cons, List.map_append, map_rename_terms, map_rename_flatMap, List.isEmpty_cons,
      Bool.false_eq_true, if_false, List.map_nil, List.nil_append, rename, Goal.label_mapVariables]
    rfl

end ProofWalk
