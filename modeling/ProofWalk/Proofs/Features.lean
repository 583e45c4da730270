import Mathlib.Tactic.Common
import ProofWalk.FeatureTable
import ProofWalk.Proofs.Results

/-!
# Numbers of features

As long as numbers last, the features of a run and their numbers determine each other, and a table that
takes up more names keeps the numbers that it has given.

Numbers are handed out in order from the start on, until the counter has gone round. The call that meets
zero fails, but the counter goes on, so the calls after it hand out the lowest numbers once more. The
failure itself changes no name and no number; it is the next new name that shares the number one with the
first.

## Main definitions

* `FeatureTable.Lawful` — names and numbers determine each other
* `FeatureTable.Extends` — one table keeps the numbers of another
* `FeatureTable.Room` — numbers for more names are left
* `FeatureTable.Interned` — one table has become another by taking up names
* `Numbers.after` — the counter after so many calls
* `FeatureTable.Consistent` — what holds of a table also after a failure

## Main results

* `FeatureTable.intern_spec` — what taking up a name does
* `FeatureTable.intern_of_room` — as long as there is a number it does not fail
* `FeatureTable.Interned.spec` — tables of a run
* `Numbers.take_after` — the reply to every call
* `FeatureTable.intern_failed`, `FeatureTable.intern_after_failure` — a failure and what comes after it
* `FeatureTable.consistent_answers`, `FeatureTable.lawful_answers` — tables after any names in turn
-/

namespace ProofWalk

namespace FeatureTable

/-- Names and numbers determine each other, and numbers that are still to be given are new. -/
structure Lawful (t : FeatureTable) : Prop where
  inverse : ∀ name n, t.number? name = some n ↔ t.name? n = some name
  positive : ∀ n name, t.name? n = some name → 1 ≤ n ∧ n < Numbers.limit
  fresh : t.free.next ≠ 0 → ∀ n name, t.name? n = some name → n < t.free.next
  next : t.free.next < Numbers.limit

/-- A table gives every name the number that another one gives it. -/
def Extends (t t' : FeatureTable) : Prop :=
  ∀ name n, t.number? name = some n → t'.number? name = some n

theorem Extends.refl (t : FeatureTable) : t.Extends t := fun _ _ given => given

theorem Extends.trans {t t' t'' : FeatureTable} (first : t.Extends t') (second : t'.Extends t'') :
    t.Extends t'' := fun name n given => second name n (first name n given)

theorem lawful_empty : empty.Lawful where
  inverse name n := by
    change (∅ : Std.HashMap String Nat)[name]? = some n ↔ (∅ : Std.HashMap Nat String)[n]? = some name
    simp
  positive n name given := by
    change (∅ : Std.HashMap Nat String)[n]? = some name at given
    simp at given
  fresh _ n name given := by
    change (∅ : Std.HashMap Nat String)[n]? = some name at given
    simp at given
  next := by decide

/-- What a new name does to a table: it has the number of the counter from then on, and so has no other
name that did not have it before. -/
theorem intern_new {t t' : FeatureTable} {name : String} {n : Nat} (unseen : t.number? name = none)
    (interned : t.intern name = (.ok n, t')) :
    n = t.free.next ∧ n ≠ 0 ∧ t'.free.next = (n + 1) % Numbers.limit ∧
      (∀ x, t'.number? x = if name = x then some n else t.number? x) ∧
      ∀ m, t'.name? m = if n = m ∧ t.name? n = none then some name else t.name? m := by
  unfold intern at interned
  rw [unseen] at interned
  simp only [Numbers.take] at interned
  split at interned
  · rename_i taken
    split at taken
    · cases taken
    rename_i left
    cases taken
    cases interned
    refine ⟨rfl, left, rfl, fun x => ?_, fun m => ?_⟩
    · change (t.numbers.insert name t.free.next)[x]? = _
      rw [Std.HashMap.getElem?_insert]
      simp only [beq_iff_eq]
      rfl
    · change (t.namesByNumber.insertIfNew t.free.next name)[m]? = _
      rw [Std.HashMap.getElem?_insertIfNew]
      refine if_congr ?_ rfl rfl
      rw [beq_iff_eq, Std.HashMap.mem_iff_isSome_getElem?, Option.not_isSome_iff_eq_none]
      rfl
  · cases interned

/-- A name that is taken up has a number from then on, and all others keep theirs. -/
theorem intern_spec {t t' : FeatureTable} (lawful : t.Lawful) {name : String} {n : Nat}
    (interned : t.intern name = (.ok n, t')) :
    t'.Lawful ∧ t.Extends t' ∧ t'.number? name = some n := by
  cases given : t.number? name with
  | some m =>
    unfold intern at interned
    rw [given] at interned
    cases interned
    exact ⟨lawful, .refl t, given⟩
  | none =>
    obtain ⟨rfl, left, next, number, nameOf⟩ := intern_new given interned
    -- the number is new, as all those given are below it
    have unused : t.name? t.free.next = none := by
      cases found : t.name? t.free.next with
      | none => rfl
      | some other => exact absurd (lawful.fresh left _ _ found) (Nat.lt_irrefl _)
    simp only [unused, and_true] at nameOf
    have bound := lawful.next
    refine ⟨⟨fun x m => ?_, fun m x found => ?_, fun more m x found => ?_, ?_⟩, fun x m found => ?_, ?_⟩
    · rw [number, nameOf]
      by_cases sameName : name = x
      · subst sameName
        by_cases sameNumber : t.free.next = m
        · simp [sameNumber]
        · rw [if_pos rfl, if_neg sameNumber, ← lawful.inverse, given]
          simp [sameNumber]
      · rw [if_neg sameName]
        by_cases sameNumber : t.free.next = m
        · subst sameNumber
          rw [if_pos rfl, lawful.inverse, unused]
          simp [sameName]
        · rw [if_neg sameNumber]
          exact lawful.inverse x m
    · rw [nameOf] at found
      split at found
      · omega
      · exact lawful.positive m x found
    · rw [next] at more ⊢
      have below : t.free.next + 1 < Numbers.limit := by
        by_contra full
        rw [show t.free.next + 1 = Numbers.limit by omega, Nat.mod_self] at more
        exact more rfl
      rw [Nat.mod_eq_of_lt below]
      rw [nameOf] at found
      split at found
      · omega
      · exact Nat.lt_succ_of_lt (lawful.fresh left m x found)
    · rw [next]
      exact Nat.mod_lt _ (by decide)
    · rw [number, if_neg]
      · exact found
      · rintro rfl
        rw [given] at found
        cases found
    · rw [number, if_pos rfl]

/-- There are numbers for so many more names. -/
def Room (t : FeatureTable) (names : Nat) : Prop :=
  t.free.next ≠ 0 ∧ t.free.next + names < Numbers.limit

theorem Room.mono {t : FeatureTable} {names fewer : Nat} (room : t.Room names)
    (less : fewer ≤ names) : t.Room fewer :=
  ⟨room.1, Nat.lt_of_le_of_lt (Nat.add_le_add_left less _) room.2⟩

/-- A name is taken up as long as there is a number for it. -/
theorem intern_of_room {t : FeatureTable} {names : Nat} (room : t.Room (names + 1)) (name : String) :
    ∃ n t', t.intern name = (.ok n, t') ∧ t'.Room names := by
  unfold intern
  cases given : t.number? name with
  | some n => exact ⟨n, t, rfl, room.mono (Nat.le_succ names)⟩
  | none =>
    obtain ⟨left, bound⟩ := room
    simp only [Numbers.take, if_neg left]
    refine ⟨_, _, rfl, ?_⟩
    have below : t.free.next + 1 < Numbers.limit := by omega
    have next : (t.free.next + 1) % Numbers.limit = t.free.next + 1 := Nat.mod_eq_of_lt below
    constructor
    · change (t.free.next + 1) % Numbers.limit ≠ 0
      omega
    · change (t.free.next + 1) % Numbers.limit + names < Numbers.limit
      omega

/-- One table has become another by taking up names, none of which failed. -/
def Interned (t t' : FeatureTable) : Prop := ∃ names numbers, t.internAll names = (.ok numbers, t')

theorem Interned.refl (t : FeatureTable) : t.Interned t := ⟨[], [], rfl⟩

theorem Interned.spec {t t' : FeatureTable} (interned : t.Interned t') (lawful : t.Lawful) :
    t'.Lawful ∧ t.Extends t' := by
  obtain ⟨names, numbers, done⟩ := interned
  induction names generalizing t numbers with
  | nil =>
    cases done
    exact ⟨lawful, .refl _⟩
  | cons name rest ih =>
    unfold internAll at done
    split at done
    · cases done
    · rename_i n t₁ first
      obtain ⟨lawful₁, extends₁, -⟩ := intern_spec lawful first
      split at done
      · rename_i numbers' t₂ others
        cases done
        obtain ⟨lawful', more⟩ := ih lawful₁ _ others
        exact ⟨lawful', extends₁.trans more⟩
      · cases done

end FeatureTable

/-! ### When numbers run out -/

namespace Numbers

/-- The counter after so many calls. -/
def after (n : Numbers) : Nat → Numbers
  | 0 => n
  | calls + 1 => (n.after calls).take.2

variable {start k : Nat}

theorem next_after (bound : start < limit) (k : Nat) :
    ((startingFrom start).after k).next = (max start 1 + k) % limit := by
  induction k with
  | zero =>
    have one : 1 < limit := by decide
    exact (Nat.mod_eq_of_lt (show max start 1 < limit by omega)).symm
  | succ k ih =>
    change (((startingFrom start).after k).next + 1) % limit = _
    rw [ih, Nat.mod_add_mod, Nat.add_assoc]

/-- The reply to a call with so many calls before it, whether some of them failed or not. -/
theorem take_after (bound : start < limit) (k : Nat) :
    ((startingFrom start).after k).take.1 =
      if (max start 1 + k) % limit = 0 then .error .featuresExhausted
      else .ok ((max start 1 + k) % limit) := by
  rw [take, next_after bound]

/-- Until the counter has gone round the calls are given the numbers from the start on, in order. -/
theorem take_after_of_lt (bound : start < limit) (lasts : max start 1 + k < limit) :
    ((startingFrom start).after k).take.1 = .ok (max start 1 + k) := by
  rw [take_after bound, Nat.mod_eq_of_lt lasts, if_neg (by omega)]

/-- The call after one that failed is given one, which is not above the numbers given before. -/
theorem take_after_failure {n n' : Numbers} {e : Error} (failed : n.take = (.error e, n')) :
    n'.take.1 = .ok 1 := by
  unfold take at failed
  split at failed
  · rename_i round
    cases failed
    rw [round]
    rfl
  · cases failed

end Numbers

namespace FeatureTable

/-- A name that a number has, has that number, and every number of a name has a name. Two names may have
one number. -/
structure Consistent (t : FeatureTable) : Prop where
  named : ∀ n name, t.name? n = some name → t.number? name = some n
  given : ∀ name n, t.number? name = some n → ∃ first, t.name? n = some first

variable {t t' : FeatureTable} {name : String} {e : Error}

theorem Lawful.consistent (lawful : t.Lawful) : t.Consistent where
  named n name found := (lawful.inverse name n).2 found
  given name n found := ⟨name, (lawful.inverse name n).1 found⟩

/-- A name that cannot be taken up leaves all names and numbers as they are. Only the counter goes on. -/
theorem intern_failed (failed : t.intern name = (.error e, t')) :
    e = .featuresExhausted ∧ t.number? name = none ∧ t.free.next = 0 ∧
      t' = { t with free := { next := 1 } } := by
  unfold intern at failed
  cases given : t.number? name with
  | some n =>
    rw [given] at failed
    cases failed
  | none =>
    rw [given] at failed
    simp only [Numbers.take] at failed
    split at failed
    · cases failed
    · rename_i taken
      split at taken
      · rename_i round
        cases taken
        cases failed
        rw [round]
        exact ⟨rfl, rfl, rfl, rfl⟩
      · cases taken

/-- A table stays consistent whatever name comes, and whether it is taken up or not. -/
theorem Consistent.intern (consistent : t.Consistent) (name : String) :
    (t.intern name).2.Consistent ∧ t.Extends (t.intern name).2 := by
  rcases interned : t.intern name with ⟨e | n, t'⟩
  · obtain ⟨-, -, -, rfl⟩ := intern_failed interned
    exact ⟨⟨consistent.named, consistent.given⟩, fun _ _ found => found⟩
  cases unseen : t.number? name with
  | some m =>
    unfold FeatureTable.intern at interned
    rw [unseen] at interned
    cases interned
    exact ⟨consistent, .refl t⟩
  | none =>
    obtain ⟨-, -, -, number, nameOf⟩ := intern_new unseen interned
    refine ⟨⟨fun m x found => ?_, fun x m found => ?_⟩, fun x m found => ?_⟩
    · rw [number]
      rw [nameOf] at found
      split at found
      · rename_i new
        cases found
        rw [if_pos rfl, new.1]
      · have old := consistent.named m x found
        rw [if_neg fun same => by rw [same, old] at unseen; cases unseen]
        exact old
    · rw [number] at found
      rw [nameOf]
      split at found
      · -- the number may have been given before, and then it keeps the name that it has
        cases found
        cases free : t.name? n with
        | none => exact ⟨name, if_pos ⟨rfl, rfl⟩⟩
        | some first => exact ⟨first, by rw [if_neg fun new => by cases new.2]⟩
      · obtain ⟨first, old⟩ := consistent.given x m found
        refine ⟨first, ?_⟩
        rw [if_neg fun new => by rw [← new.1, new.2] at old; cases old]
        exact old
    · rw [number, if_neg fun same => by rw [same, found] at unseen; cases unseen]
      exact found

/-- The next new name after a failure is given the number one, which stays the number of the name that
had it first. -/
theorem intern_after_failure (failed : t.intern name = (.error e, t')) {first other : String}
    (had : t.name? 1 = some first) (unseen : t.number? other = none) :
    (t'.intern other).1 = .ok 1 ∧ (t'.intern other).2.number? other = some 1 ∧
      (t'.intern other).2.name? 1 = some first := by
  obtain ⟨-, -, -, isTable⟩ := intern_failed failed
  have had' : t'.name? 1 = some first := by rwa [isTable]
  have unseen' : t'.number? other = none := by rwa [isTable]
  have taken : (t'.intern other).1 = .ok 1 := by
    unfold FeatureTable.intern
    rw [unseen', isTable]
    rfl
  obtain ⟨-, -, -, number, nameOf⟩ := intern_new unseen' (Prod.ext taken rfl)
  refine ⟨taken, by rw [number, if_pos rfl], ?_⟩
  rw [nameOf, if_neg fun new => by rw [had'] at new; cases new.2]
  exact had'

/-! ### Names in turn -/

/-- After any names in turn, of which some may have failed, a table is consistent and has kept the numbers
that it has given. -/
theorem consistent_answers (consistent : t.Consistent) (names : List String) :
    (answers intern t names).2.Consistent ∧ t.Extends (answers intern t names).2 := by
  induction names generalizing t with
  | nil => exact ⟨consistent, .refl t⟩
  | cons name rest ih =>
    obtain ⟨consistent', more⟩ := consistent.intern name
    obtain ⟨last, more'⟩ := ih consistent'
    exact ⟨last, more.trans more'⟩

/-- As long as no name has failed, names and numbers determine each other. -/
theorem lawful_answers (lawful : t.Lawful) (names : List String)
    (none : ∀ reply ∈ (answers intern t names).1, ∃ n, reply = .ok n) :
    (answers intern t names).2.Lawful := by
  induction names generalizing t with
  | nil => exact lawful
  | cons name rest ih =>
    obtain ⟨n, taken⟩ := none _ (List.mem_cons_self ..)
    obtain ⟨lawful', -, -⟩ := intern_spec lawful (n := n) (Prod.ext taken rfl)
    exact ih lawful' fun reply member => none reply (List.mem_cons_of_mem _ member)

end FeatureTable

end ProofWalk
