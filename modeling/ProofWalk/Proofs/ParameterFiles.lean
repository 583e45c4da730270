import ProofWalk.Parameters.File
import ProofWalk.Proofs.Decimal.RoundTrip
import ProofWalk.Proofs.FeatureIndex
import ProofWalk.Proofs.Parameters

/-!
# Written parameters

Parameters are written with one name on each line and its weight behind a tab. The reader cuts a line at its last
tab, and a weight holds no tab, so that a name may hold tabs, carriage returns and blanks and be empty. But a line
that begins with a number sign is a comment to the reader. The writer does not mind this: the parameter of a name
that begins so is written and not read.

## Main definitions

* `Parameters.BeginsComment` — a name with which a line is read as a comment

## Main results

* `Parameters.parseLine?_entry` — what is read from the line of a parameter
* `Parameters.parse?_text` — what is read from the written form
* `Parameters.load_of_save` — also by way of a file: all weights but those of such names
-/

namespace ProofWalk

namespace Parameters

/-! ### Lines -/

/-- A text is cut at a separator that does not occur behind it. -/
theorem splitLast_append {sep : Char} (before : List Char) {after : List Char} (last : sep ∉ after) :
    splitLast sep (before ++ sep :: after) = some (before, after) := by
  have others : ∀ c ∈ after.reverse, (c != sep) = true := fun c member =>
    bne_iff_ne.2 fun same => last (same ▸ List.mem_reverse.1 member)
  have reversed : (before ++ sep :: after).reverse = after.reverse ++ sep :: before.reverse := by simp
  rw [splitLast, reversed]
  simp only [List.dropWhile_append_of_pos others, List.takeWhile_append_of_pos others,
    List.dropWhile_cons_of_neg, List.takeWhile_cons_of_neg, bne_self_eq_false, Bool.false_eq_true, not_false_iff,
    List.append_nil, List.reverse_reverse]

/-- A name with which the line of its parameter begins a comment. -/
def BeginsComment (name : String) : Prop := name.toList.head? = some '#'

instance (name : String) : Decidable (BeginsComment name) := inferInstanceAs (Decidable (_ = _))

/-- What is written of a parameter, without the end of its line. -/
def entryText (entry : String × Float) : String := entry.1 ++ "\t" ++ Decimal.plain entry.2

theorem toList_entryText (entry : String × Float) :
    (entryText entry).toList = entry.1.toList ++ '\t' :: (Decimal.plain entry.2).toList := by
  simp only [entryText, String.toList_append, List.append_assoc]
  rfl

/-- The line ends in the weight, and so not in a carriage return. -/
theorem dropReturn_entryText (entry : String × Float) :
    Text.dropReturn (entryText entry).toList = (entryText entry).toList := by
  have word := Decimal.isWord_plain entry.2
  have last : (entryText entry).toList.getLast? = some ((Decimal.plain entry.2).toList.getLast word.some) := by
    rw [toList_entryText, List.append_cons, List.getLast?_append_of_ne_nil _ word.some]
    exact List.getLast?_eq_some_getLast word.some
  refine Text.dropReturn_of_getLast? last fun isReturn => ?_
  have member := List.getLast_mem word.some
  rw [isReturn] at member
  exact word.not_mem (by decide) member

/-- What is read from the line of a parameter: the name and the weight, or nothing. -/
theorem parseLine?_entry {entry : String × Float} (finite : entry.2.isFinite) (number : Nat) :
    parseLine? (entryText entry) number = .ok (if BeginsComment entry.1 then none else some entry) := by
  obtain ⟨name, weight⟩ := entry
  have word := Decimal.isWord_plain weight
  -- returns are dropped from the end of a line, where the weight stands
  have whole : ((entryText (name, weight)).toList.reverse.dropWhile (· == '\r')).reverse =
      name.toList ++ '\t' :: (Decimal.plain weight).toList := by
    rw [toList_entryText, List.append_cons]
    refine Text.dropWhile_reverse_append _ word.some fun c member => beq_eq_false_iff_ne.2 ?_
    rintro rfl
    exact word.not_mem (by decide) member
  -- even with an empty name a line is not blank
  have filled : Text.isAllBlank (name.toList ++ '\t' :: (Decimal.plain weight).toList) = false := by
    obtain ⟨c, member⟩ := List.exists_mem_of_ne_nil _ word.some
    refine List.all_eq_false.2 ⟨c, ?_, by rw [word.ink c member]; exact Bool.false_ne_true⟩
    exact List.mem_append_right _ (List.mem_cons_of_mem _ member)
  -- an empty name puts the tab in front, which begins no comment
  have first : (name.toList ++ '\t' :: (Decimal.plain weight).toList).head? = some '#' ↔ BeginsComment name := by
    rw [BeginsComment]
    cases name.toList with
    | nil => exact ⟨fun same => absurd (Option.some.inj same) (by decide), fun none => by cases none⟩
    | cons c rest => rfl
  unfold parseLine?
  simp only [whole, filled, Bool.false_or, beq_iff_eq, first]
  split
  · rfl
  · have cut := splitLast_append name.toList (word.not_mem (by decide : Text.isBlank '\t' = true))
    have reads : Decimal.readChars? (Decimal.plain weight).toList = some weight := by
      rw [Decimal.toList_plain, Decimal.readChars?_plainChars]
    simp only [cut, Text.trim_of_forall word.ink, reads, if_pos finite, String.ofList_toList]

/-- A name with a number sign in front is written as a comment. -/
example : parseLine? (entryText ("#f", 0)) 1 = .ok none := by
  decide +kernel

/-! ### Files -/

variable {p : Parameters Float}

/-- The written form has a line for each parameter. -/
theorem text_eq (p : Parameters Float) : p.text = String.join ((p.toList.map entryText).map (· ++ "\n")) := by
  rw [text, List.map_map]
  rfl

theorem addLines_entries {entries : List (String × Float)} (finite : ∀ entry ∈ entries, entry.2.isFinite)
    (p : Parameters Float) (number : Nat) :
    p.addLines (Text.numbered number (entries.map entryText)) =
      .ok ((entries.filter fun entry => ¬BeginsComment entry.1).foldl (fun p entry => p.set entry.1 entry.2) p) := by
  induction entries generalizing p number with
  | nil => rfl
  | cons entry entries ih =>
    have rest := fun p => ih (fun other member => finite other (List.mem_cons_of_mem _ member)) p (number + 1)
    rw [List.map_cons, Text.numbered, addLines, parseLine?_entry (finite entry List.mem_cons_self)]
    by_cases comments : BeginsComment entry.1
    · rw [if_pos comments, List.filter_cons_of_neg (by simpa using comments)]
      exact rest p
    · rw [if_neg comments, List.filter_cons_of_pos (by simpa using comments)]
      exact rest _

/-- What is read from the written form: all parameters but those that are comments. -/
theorem parse?_text (finite : ∀ entry ∈ p.toList, entry.2.isFinite)
    (line : ∀ entry ∈ p.toList, '\n' ∉ entry.1.toList) :
    parse? p.text = .ok (ofList (p.toList.filter fun entry => ¬BeginsComment entry.1)) := by
  -- the text is cut where its lines were joined
  have lines : Text.linesOf p.text = p.toList.map entryText := by
    rw [text_eq]
    refine Text.linesOf_join (fun s isLine => ?_) fun s isLine => ?_
    · obtain ⟨entry, member, rfl⟩ := List.mem_map.1 isLine
      rw [toList_entryText, List.mem_append, List.mem_cons, not_or, not_or]
      exact ⟨line entry member, by decide, (Decimal.isWord_plain entry.2).onLine⟩
    · obtain ⟨entry, -, rfl⟩ := List.mem_map.1 isLine
      exact dropReturn_entryText entry
  rw [parse?, lines, addLines_entries finite]
  rfl

/-- Parameters with finite weights and with names on one line can be saved under a path that leads to a file. What
is loaded from there are the same weights of the same features, with the clocks at zero, except that features whose
names begin with a number sign are missing. -/
theorem load_of_save (finite : ∀ f w, p.get? f = some w → w.isFinite)
    (line : ∀ f, (p.get? f).isSome → '\n' ∉ f.toList) {path name : String}
    (place : Store.fileOf? path = some name) (s : Store) :
    ∃ q s', p.save (m := StateM Store) path s = (.ok (), s') ∧
      load (m := StateM Store) path s' = (.ok q, s') ∧
      ∀ f, (q.get? f = if BeginsComment f then none else p.get? f) ∧ q.touched f = 0 := by
  have member {entry : String × Float} (member : entry ∈ p.toList) : p.get? entry.1 = some entry.2 :=
    mem_toList.1 member
  have reads := parse?_text (fun entry isEntry => finite _ _ (member isEntry)) fun entry isEntry =>
    line _ (by rw [member isEntry]; rfl)
  refine ⟨ofList (p.toList.filter fun entry => ¬BeginsComment entry.1), s.put name p.text, ?_, ?_,
    fun f => ⟨?_, touched_ofList _ f⟩⟩
  · unfold save
    rw [bind_apply, lift_apply, Store.write_apply, place]
    rfl
  · unfold load
    rw [bind_apply, lift_apply, Store.read_apply, s.get?_put place]
    simp only [reads]
    rfl
  · have distinct : ((p.toList.filter fun entry => ¬BeginsComment entry.1).map (·.1)).Nodup :=
      (nodup_map_fst_toList p).sublist (List.filter_sublist.map _)
    refine Option.ext fun w => ?_
    rw [get?_ofList distinct, List.mem_filter, mem_toList, decide_eq_true_iff]
    split
    · rename_i comments
      exact ⟨fun both => absurd comments both.2, fun none => by cases none⟩
    · rename_i other
      exact and_iff_left other

end Parameters

end ProofWalk
