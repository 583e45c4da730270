import ProofWalk.Logic.Printer
import ProofWalk.Proofs.Logic.Variables

/-!
# Solutions told apart by their texts

Solutions of one query differ in what stands for its variables. An argument ends at a comma or at a closing
parenthesis, so texts that hold neither are read off again from the text of a solution. Constants may hold
both, and then two solutions may have one text.

## Main definitions

* `Text.Unbroken` — texts without the characters that an argument ends at
* `Query.Unambiguous` — bindings that can be read off the text of a query

## Main results

* `Query.mapVariables_chars_inj` — equal texts show equal values
* `Query.substitute_injective` — different bindings give different texts
-/

namespace ProofWalk

open Text (joinWith)

/-- A text without a character that an argument ends at. -/
def Text.Unbroken (s : List Char) : Prop := ',' ∉ s ∧ ')' ∉ s

/-- A text behind an argument. -/
def Text.Breaks (s : List Char) : Prop := ∃ c rest, s = c :: rest ∧ (c = ',' ∨ c = ')')

namespace Text

theorem breaks_cons {c : Char} (stop : c = ',' ∨ c = ')') (rest : List Char) : Breaks (c :: rest) :=
  ⟨c, rest, rfl, stop⟩

/-- Texts are told apart from what is behind them. -/
theorem Unbroken.append_inj {s s' x x' : List Char} (unbroken : Unbroken s) (unbroken' : Unbroken s')
    (breaks : Breaks x) (breaks' : Breaks x') (same : s ++ x = s' ++ x') : s = s' ∧ x = x' := by
  have before {s x : List Char} (unbroken : Unbroken s) (breaks : Breaks x) :
      (s ++ x).takeWhile (fun c => c != ',' && c != ')') = s := by
    obtain ⟨c, rest, rfl, stop⟩ := breaks
    rw [List.takeWhile_append_of_pos, List.takeWhile_cons_of_neg, List.append_nil]
    · rcases stop with rfl | rfl <;> decide
    · intro c member
      have noComma : c ≠ ',' := fun same => unbroken.1 (same ▸ member)
      have noBracket : c ≠ ')' := fun same => unbroken.2 (same ▸ member)
      simp [noComma, noBracket]
  have same' : s = s' := by rw [← before unbroken breaks, same, before unbroken' breaks']
  subst same'
  exact ⟨rfl, List.append_cancel_left same⟩

end Text

/-! ### Values in a text -/

section

variable {f f' : Variable → Term} {x x' : List Char}

/-- A variable whose value can be read off the text of an argument, by either of two valuations. -/
def Variable.Readable (f f' : Variable → Term) (v : Variable) : Prop :=
  Text.Unbroken (f v).chars ∧ Text.Unbroken (f' v).chars

theorem Term.chars_inj {t : Term} (readable : ∀ v, t.var? = some v → v.Readable f f')
    (breaks : Text.Breaks x) (breaks' : Text.Breaks x')
    (same : (t.mapVariable f).chars ++ x = (t.mapVariable f').chars ++ x') :
    (∀ v, t.var? = some v → (f v).chars = (f' v).chars) ∧ x = x' := by
  cases t with
  | constant c =>
    refine ⟨fun v isVar => ?_, List.append_cancel_left same⟩
    cases isVar
  | var v =>
    obtain ⟨unbroken, unbroken'⟩ := readable v rfl
    obtain ⟨value, rest⟩ := unbroken.append_inj unbroken' breaks breaks' same
    refine ⟨fun w isVar => ?_, rest⟩
    cases isVar
    exact value

/-- Arguments up to the closing parenthesis. -/
theorem Term.args_inj {t : Term} {ts : List Term}
    (readable : ∀ a ∈ t :: ts, ∀ v, a.var? = some v → v.Readable f f')
    (same : joinWith [','] ((t :: ts).map fun t => (t.mapVariable f).chars) ++ ')' :: x =
      joinWith [','] ((t :: ts).map fun t => (t.mapVariable f').chars) ++ ')' :: x') :
    (∀ a ∈ t :: ts, ∀ v, a.var? = some v → (f v).chars = (f' v).chars) ∧ x = x' := by
  obtain ⟨first, others⟩ := List.forall_mem_cons.1 readable
  induction ts generalizing t with
  | nil =>
    obtain ⟨value, rest⟩ :=
      Term.chars_inj first (Text.breaks_cons (.inr rfl) x) (Text.breaks_cons (.inr rfl) x') same
    exact ⟨List.forall_mem_singleton.2 value, (List.cons.inj rest).2⟩
  | cons next ts ih =>
    simp only [List.map_cons, joinWith, List.append_assoc, List.cons_append, List.nil_append] at same
    obtain ⟨value, rest⟩ :=
      Term.chars_inj first (Text.breaks_cons (.inl rfl) _) (Text.breaks_cons (.inl rfl) _) same
    obtain ⟨next, behind⟩ := List.forall_mem_cons.1 others
    obtain ⟨values, rest⟩ := ih others (List.cons.inj rest).2 next behind
    exact ⟨List.forall_mem_cons.2 ⟨value, values⟩, rest⟩

/-- A goal shows the values of its variables, and where it ends. -/
theorem Goal.chars_inj {g : Goal} (readable : ∀ v ∈ g.vars, v.Readable f f')
    (same : (g.mapVariables f).chars ++ x = (g.mapVariables f').chars ++ x') :
    (∀ v ∈ g.vars, (f v).chars = (f' v).chars) ∧ x = x' := by
  obtain ⟨functor, args⟩ := g
  cases args with
  | nil => exact ⟨fun v member => (List.not_mem_nil member).elim, List.append_cancel_left same⟩
  | cons t ts =>
    have inner : joinWith [','] ((t :: ts).map fun t => (t.mapVariable f).chars) ++ ')' :: x =
        joinWith [','] ((t :: ts).map fun t => (t.mapVariable f').chars) ++ ')' :: x' := by
      have opened (f : Variable → Term) (x : List Char) :
          (Goal.mapVariables f ⟨functor, t :: ts⟩).chars ++ x = functor.toList ++
            '(' :: (joinWith [','] ((t :: ts).map fun t => (t.mapVariable f).chars) ++ ')' :: x) := by
        simp only [Goal.mapVariables, Goal.chars, List.map_cons, List.map_map, List.append_assoc,
          List.cons_append, List.nil_append]
        rfl
      rw [opened, opened] at same
      exact (List.cons.inj (List.append_cancel_left same)).2
    have ofArgs (a : Term) (member : a ∈ t :: ts) (v : Variable) (isVar : a.var? = some v) :
        v ∈ (Goal.mk functor (t :: ts)).vars := List.mem_filterMap.2 ⟨a, member, isVar⟩
    obtain ⟨values, rest⟩ :=
      Term.args_inj (fun a member v isVar => readable v (ofArgs a member v isVar)) inner
    refine ⟨fun v member => ?_, rest⟩
    obtain ⟨a, isArg, isVar⟩ := List.mem_filterMap.1 member
    exact values a isArg v isVar

/-- Goals with commas between them. -/
theorem Goal.all_chars_inj {g : Goal} {gs : List Goal}
    (readable : ∀ h ∈ g :: gs, ∀ v ∈ h.vars, v.Readable f f')
    (same : joinWith [','] ((g :: gs).map fun h => (h.mapVariables f).chars) =
      joinWith [','] ((g :: gs).map fun h => (h.mapVariables f').chars)) :
    ∀ h ∈ g :: gs, ∀ v ∈ h.vars, (f v).chars = (f' v).chars := by
  obtain ⟨first, others⟩ := List.forall_mem_cons.1 readable
  induction gs generalizing g with
  | nil =>
    have alone : (g.mapVariables f).chars ++ [] = (g.mapVariables f').chars ++ [] := by
      simpa [joinWith] using same
    exact List.forall_mem_singleton.2 (Goal.chars_inj first alone).1
  | cons next gs ih =>
    simp only [List.map_cons, joinWith, List.append_assoc, List.cons_append, List.nil_append] at same
    obtain ⟨values, rest⟩ := Goal.chars_inj first same
    obtain ⟨next, behind⟩ := List.forall_mem_cons.1 others
    exact List.forall_mem_cons.2 ⟨values, ih others (List.cons.inj rest).2 next behind⟩

/-- Equal texts of a query under two valuations show equal values. -/
theorem Query.mapVariables_chars_inj {q : Query} (readable : ∀ v ∈ q.vars, v.Readable f f')
    (same : (q.mapVariables f).chars = (q.mapVariables f').chars) :
    ∀ v ∈ q.vars, (f v).chars = (f' v).chars := by
  have whole (f : Variable → Term) : (q.mapVariables f).chars =
      joinWith [','] ((q.head :: q.body).map fun g => (g.mapVariables f).chars) := by
    simp [Query.mapVariables, Query.chars, Query.goals, Function.comp_def]
  rw [whole, whole] at same
  have values := Goal.all_chars_inj
    (fun g isGoal v isVar => readable v (Query.mem_vars_of_goal isGoal isVar)) same
  intro v member
  obtain ⟨g, isGoal, isVar⟩ := List.mem_flatMap.1 (mem_firstOccurrences.1 member)
  exact values g isGoal v isVar

end

/-! ### Bindings -/

namespace Query

variable {q : Query} {values values' : List (Option Term)}

/-- What stands for a variable of a query under bindings: the variable itself if it is not bound. -/
def value (q : Query) (values : List (Option Term)) (v : Variable) : Term :=
  match (q.vars.zip values).lookup v with
  | some (some t) => t
  | _ => .var v

/-- Bindings to constants that hold no comma and no closing parenthesis and are not names of variables of the
query. -/
structure Unambiguous (q : Query) (values : List (Option Term)) : Prop where
  length : values.length = q.vars.length
  constant : ∀ t, some t ∈ values → ∃ c : String, t = .constant c ∧ Text.Unbroken c.toList ∧
    ∀ v ∈ q.vars, v.name ≠ c

/-- A variable is not bound, or it is bound to a constant that no variable has for its name. -/
theorem Unambiguous.cases (told : q.Unambiguous values) {v : Variable} (known : v ∈ q.vars) :
    ((q.vars.zip values).lookup v = some none ∧ q.value values v = .var v) ∨
      ∃ c : String, (q.vars.zip values).lookup v = some (some (.constant c)) ∧
        q.value values v = .constant c ∧ Text.Unbroken c.toList ∧ ∀ w ∈ q.vars, w.name ≠ c := by
  obtain ⟨binding, member, found⟩ := exists_lookup_zip told.length known
  cases binding with
  | none => exact .inl ⟨found, by rw [value, found]⟩
  | some t =>
    obtain ⟨c, rfl, unbroken, apart⟩ := told.constant t member
    exact .inr ⟨c, found, by rw [value, found], unbroken, apart⟩

/-- Different bindings give a query different texts, if its text shows them unambiguously. -/
theorem substitute_injective (names : ∀ v ∈ q.vars, Text.Unbroken v.name.toList)
    (told : q.Unambiguous values) (told' : q.Unambiguous values')
    (same : (q.substitute values).text = (q.substitute values').text) : values = values' := by
  have readable : ∀ v ∈ q.vars, v.Readable (q.value values) (q.value values') := by
    have unbroken {values : List (Option Term)} (told : q.Unambiguous values) {v : Variable}
        (known : v ∈ q.vars) : Text.Unbroken (q.value values v).chars := by
      obtain ⟨-, isValue⟩ | ⟨c, -, isValue, unbroken, -⟩ := told.cases known
      · rw [isValue]
        exact names v known
      · rw [isValue]
        exact unbroken
    exact fun v known => ⟨unbroken told known, unbroken told' known⟩
  have texts := mapVariables_chars_inj readable (String.ofList_injective same)
  have nodup : q.vars.Nodup := nodup_firstOccurrences _
  refine eq_of_lookup_zip nodup told.length told'.length fun v known => ?_
  have text := texts v known
  -- what is not bound shows the name of its variable, and no constant has that name
  obtain ⟨found, isValue⟩ | ⟨c, found, isValue, -, apart⟩ := told.cases known <;>
    obtain ⟨found', isValue'⟩ | ⟨c', found', isValue', -, apart'⟩ := told'.cases known <;>
    rw [isValue, isValue'] at text
  · rw [found, found']
  · exact absurd (String.toList_injective text) (apart' v known)
  · exact absurd (String.toList_injective text).symm (apart v known)
  · obtain rfl : c = c' := String.toList_injective text
    rw [found, found']

/-- Constants with commas are not told apart. -/
example :
    let pair : Query := ⟨⟨"p", [.var ⟨"X", 0⟩, .var ⟨"Y", 1⟩]⟩, []⟩
    (pair.substitute [some (.constant "a,b"), some (.constant "c")]).text =
      (pair.substitute [some (.constant "a"), some (.constant "b,c")]).text := by
  decide

end Query

end ProofWalk
