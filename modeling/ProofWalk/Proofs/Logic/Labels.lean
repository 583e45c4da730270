import ProofWalk.Logic.Basic
import Mathlib.Data.List.Basic

/-!
# Predicate labels

A label is a functor, a slash and the digits of an arity. The functor may hold slashes of its own;
digits hold none, so that the last slash cuts a label into its two parts.

## Main results

* `predicateLabel_inj` — a label determines its functor and its arity
* `labelArity_predicateLabel` — the arity read off a label, which is the arity if it fits in a word
-/

namespace ProofWalk

open Text (digitValue? readDigitsFrom? readDigits? readBelow? readCount? wordLimit)

theorem digitValue?_digitChar {d : Nat} (small : d < 10) :
    digitValue? (Nat.digitChar d) = some d := by
  match d, small with
  | 0, _ | 1, _ | 2, _ | 3, _ | 4, _ | 5, _ | 6, _ | 7, _ | 8, _ | 9, _ => decide

theorem readDigitsFrom?_append_singleton (value : Nat) (digits : List Char) (c : Char) :
    readDigitsFrom? value (digits ++ [c]) =
      (readDigitsFrom? value digits).bind fun v => (digitValue? c).map (10 * v + ·) := by
  induction digits generalizing value with
  | nil => cases h : digitValue? c <;> simp [readDigitsFrom?, h]
  | cons d rest ih => cases h : digitValue? d <;> simp [readDigitsFrom?, h, ih]

/-- The digits of a number read back. -/
theorem readDigitsFrom?_toDigits (n : Nat) : readDigitsFrom? 0 (Nat.toDigits 10 n) = some n := by
  induction n using Nat.strongRecOn with
  | ind n ih =>
    rw [Nat.toDigits_eq_if (by decide)]
    split
    · rename_i small
      simp [readDigitsFrom?, digitValue?_digitChar small]
    · rename_i large
      rw [readDigitsFrom?_append_singleton, ih (n / 10) (by omega), Option.bind_some,
        digitValue?_digitChar (Nat.mod_lt n (by decide)), Option.map_some, Nat.div_add_mod]

theorem toDigits_injective : Function.Injective (Nat.toDigits 10) := by
  intro m n equal
  have read := congrArg (readDigitsFrom? 0) equal
  rwa [readDigitsFrom?_toDigits, readDigitsFrom?_toDigits, Option.some.injEq] at read

theorem not_mem_toDigits {c : Char} (other : c.isDigit = false) (n : Nat) :
    c ∉ Nat.toDigits 10 n := by
  intro member
  have digit := Nat.isDigit_of_mem_toDigits (by decide) (by decide) member
  rw [other] at digit
  exact absurd digit (by decide)

/-- Texts cut at their last slash agree only if both parts do. -/
private theorem eq_of_append_slash {f g d e : List Char} (left : '/' ∉ d) (right : '/' ∉ e)
    (equal : f ++ '/' :: d = g ++ '/' :: e) : f = g ∧ d = e := by
  obtain ⟨k, rfl, rest⟩ | ⟨k, rfl, rest⟩ := List.append_eq_append_iff.1 equal
  all_goals
    cases k with
    | nil => simp_all
    | cons c k =>
      obtain ⟨rfl, rfl⟩ := List.cons.inj rest
      simp_all

/-- A label determines its functor and its arity. -/
theorem predicateLabel_inj {f g : String} {m n : Nat} :
    predicateLabel f m = predicateLabel g n ↔ f = g ∧ m = n := by
  constructor
  · intro equal
    have lists := congrArg String.toList equal
    simp only [predicateLabel, String.toList_ofList] at lists
    have slash : ∀ k, '/' ∉ Nat.toDigits 10 k := not_mem_toDigits (by decide)
    obtain ⟨functors, arities⟩ := eq_of_append_slash (slash m) (slash n) lists
    exact ⟨String.toList_injective functors, toDigits_injective arities⟩
  · rintro ⟨rfl, rfl⟩
    rfl

theorem readDigits?_toDigits (n : Nat) : readDigits? (Nat.toDigits 10 n) = some n := by
  have read := readDigitsFrom?_toDigits n
  cases digits : Nat.toDigits 10 n with
  | nil => exact absurd digits Nat.toDigits_ne_nil
  | cons c rest => rwa [digits] at read

/-- The digits of a number below a limit read back. -/
theorem readBelow?_toDigits (limit n : Nat) :
    readBelow? limit (Nat.toDigits 10 n) = if n < limit then some n else none := by
  have sign : '+' ∉ Nat.toDigits 10 n := not_mem_toDigits (by decide) n
  unfold readBelow?
  split
  · rename_i rest digits
    rw [digits] at sign
    exact absurd (List.mem_cons_self ..) sign
  · by_cases fits : n < limit <;> simp [readDigits?_toDigits, fits, Nat.le_of_not_lt]

/-- The digits of a number that fits in a word read back. -/
theorem readCount?_toDigits (n : Nat) :
    readCount? (Nat.toDigits 10 n) = if n < wordLimit then some n else none :=
  readBelow?_toDigits wordLimit n

/-- The arity read off a label: one that does not fit in a word reads as zero. -/
theorem labelArity_predicateLabel (functor : String) (n : Nat) :
    labelArity (predicateLabel functor n) = if n < wordLimit then n else 0 := by
  have slash : '/' ∉ Nat.toDigits 10 n := not_mem_toDigits (by decide) n
  have cut : ((functor.toList ++ '/' :: Nat.toDigits 10 n).reverse.takeWhile (· != '/')).reverse =
      Nat.toDigits 10 n := by
    rw [List.reverse_append, List.reverse_cons, List.append_assoc, List.takeWhile_append_of_pos]
    · simp
    · intro c member
      rw [List.mem_reverse] at member
      simpa using fun same : c = '/' => slash (same ▸ member)
  simp only [labelArity, predicateLabel, String.toList_ofList, cut, readCount?_toDigits]
  rw [if_pos (by simp)]
  split <;> rfl

/-- The arity read off the label of a goal. -/
theorem Goal.labelArity_label {g : Goal} (fits : g.arity < wordLimit) :
    labelArity g.label = g.arity :=
  (labelArity_predicateLabel g.functor g.arity).trans (if_pos fits)

theorem Goal.labelArity_label_or (g : Goal) : labelArity g.label = g.arity ∨ labelArity g.label = 0 := by
  rw [Goal.label, labelArity_predicateLabel]
  split
  · exact .inl rfl
  · exact .inr rfl

/-- Goals of one label have one functor and one arity. -/
theorem Goal.label_eq_iff {g h : Goal} :
    g.label = h.label ↔ g.functor = h.functor ∧ g.arity = h.arity :=
  predicateLabel_inj

/-- A goal without arguments is known by its label. -/
theorem Goal.eq_of_label {g h : Goal} (same : h.label = g.label) (nullary : g.args = []) : h = g := by
  obtain ⟨functor, arity⟩ := label_eq_iff.1 same
  have none : h.args = [] := by
    apply List.eq_nil_of_length_eq_zero
    exact arity.trans (congrArg List.length nullary)
  exact congrArg₂ mk functor (none.trans nullary.symm)

end ProofWalk
