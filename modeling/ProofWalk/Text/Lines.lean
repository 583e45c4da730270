/-!
# Blanks, lines and fields

The program trims and separates by the Unicode property White_Space, and it cuts texts at a
separator and into lines. A line ends at a line feed; one carriage return in front of the line feed
belongs to the line's end and not to the line.

## Main definitions

* `isBlank` — the characters with the property White_Space
* `trimStart`, `trimEnd`, `trim` — a text without the blanks at its ends
* `splitAt` — the pieces between the occurrences of a separator
* `lines` — the lines of a text
* `joinWith` — pieces put together with a separator between them
-/

namespace ProofWalk.Text

/-! ### Blanks -/

/-- The characters with the Unicode property White_Space. -/
def isBlank (c : Char) : Bool :=
  let n := c.toNat
  (9 ≤ n && n ≤ 13) || n == 32 || n == 0x85 || n == 0xA0 || n == 0x1680 ||
    (0x2000 ≤ n && n ≤ 0x200A) || n == 0x2028 || n == 0x2029 || n == 0x202F || n == 0x205F ||
    n == 0x3000

/-- A text without its leading blanks. -/
def trimStart (s : List Char) : List Char := s.dropWhile isBlank

/-- A text without its trailing blanks. -/
def trimEnd (s : List Char) : List Char := (s.reverse.dropWhile isBlank).reverse

/-- A text without the blanks at both ends. -/
def trim (s : List Char) : List Char := trimEnd (trimStart s)

/-- A text that holds blanks only. -/
def isAllBlank (s : List Char) : Bool := s.all isBlank

/-- The string form of `trim`. -/
def trimmed (s : String) : String := String.ofList (trim s.toList)

/-- The white space that the standard library knows is blank. -/
theorem isBlank_of_isWhitespace {c : Char} (h : c.isWhitespace = true) : isBlank c = true := by
  simp only [Char.isWhitespace, Bool.or_eq_true, decide_eq_true_eq] at h
  rcases h with ((h | h) | h) | h <;> subst h <;> decide

/-! ### Lines and fields -/

/-- The pieces between the occurrences of a separator; a text without one is a single piece. -/
def splitAt (sep : Char) : List Char → List (List Char)
  | [] => [[]]
  | c :: r =>
    if c = sep then [] :: splitAt sep r
    else match splitAt sep r with
      | [] => [[c]]
      | p :: ps => (c :: p) :: ps

/-- The string form of `splitAt`. -/
def fields (sep : Char) (s : String) : List String :=
  (splitAt sep s.toList).map String.ofList

/-- A line without the carriage return that precedes its line feed. -/
def dropReturn (s : List Char) : List Char :=
  match s.reverse with
  | '\r' :: r => r.reverse
  | _ => s

/-- The lines among pieces cut at line feeds: all but the last piece lose one carriage return, and
an empty last piece is no line. -/
def linesOfPieces : List (List Char) → List (List Char)
  | [] => []
  | [last] => if last.isEmpty then [] else [last]
  | p :: ps => dropReturn p :: linesOfPieces ps

/-- The lines of a text. -/
def lines (s : List Char) : List (List Char) := linesOfPieces (splitAt '\n' s)

/-- The string form of `lines`. -/
def linesOf (s : String) : List String := (lines s.toList).map String.ofList

/-- Pieces put together with a separator between them. -/
def joinWith (sep : List Char) : List (List Char) → List Char
  | [] => []
  | [p] => p
  | p :: ps => p ++ sep ++ joinWith sep ps

/-- Items numbered from a start. -/
def numbered {α : Type} (start : Nat) : List α → List (Nat × α)
  | [] => []
  | a :: r => (start, a) :: numbered (start + 1) r

theorem splitAt_ne_nil (sep : Char) (s : List Char) : splitAt sep s ≠ [] := by
  cases s with
  | nil => simp [splitAt]
  | cons c r =>
    simp only [splitAt]
    split
    · simp
    · split <;> simp

/-- Cutting at a separator loses nothing: the pieces joined with it give the text again. -/
theorem joinWith_splitAt (sep : Char) (s : List Char) : joinWith [sep] (splitAt sep s) = s := by
  induction s with
  | nil => rfl
  | cons c r ih =>
    simp only [splitAt]
    split
    · rename_i h
      cases hs : splitAt sep r with
      | nil => exact absurd hs (splitAt_ne_nil sep r)
      | cons p ps => simp [joinWith, ← hs, ih, h]
    · cases hs : splitAt sep r with
      | nil => exact absurd hs (splitAt_ne_nil sep r)
      | cons p ps =>
        rw [hs] at ih
        cases ps with
        | nil => simpa [joinWith] using ih
        | cons q qs => simpa [joinWith] using ih

end ProofWalk.Text
