import Playbook.Text.Blank

/-!
# Pieces and lines of a text

`splitOn` cuts a text at every occurrence of a separator; it is never empty and loses nothing but
the separators.  `lines` is the list of the lines that a text is printed in, where a final line
break ends the last line and does not open another one.
-/

namespace Playbook.Text

/-- The pieces of a text between the occurrences of a separator. -/
def splitOn (sep : Char) : List Char → List (List Char)
  | [] => [[]]
  | c :: rest =>
    if c = sep then [] :: splitOn sep rest
    else (splitOn sep rest).modifyHead (c :: ·)

@[simp] theorem splitOn_nil (sep : Char) : splitOn sep [] = [[]] := rfl

/-- A text has at least one piece. -/
theorem splitOn_ne_nil (sep : Char) (text : List Char) : splitOn sep text ≠ [] := by
  induction text with
  | nil => simp [splitOn]
  | cons c rest ih =>
    rw [splitOn]
    split
    · simp
    · intro h
      exact ih (List.modifyHead_eq_nil_iff.1 h)

/-- No piece holds the separator. -/
theorem not_mem_of_mem_splitOn {sep : Char} {text piece : List Char}
    (h : piece ∈ splitOn sep text) : sep ∉ piece := by
  induction text generalizing piece with
  | nil => simp_all [splitOn]
  | cons c rest ih =>
    rw [splitOn] at h
    split at h
    · rcases List.mem_cons.1 h with rfl | h
      · simp
      · exact ih h
    · next hc =>
      cases hs : splitOn sep rest with
      | nil => simp [hs] at h
      | cons first more =>
        rw [hs] at h ih
        rcases List.mem_cons.1 h with rfl | h
        · simpa [Ne.symm hc] using ih (List.mem_cons_self ..)
        · exact ih (List.mem_cons_of_mem _ h)

/-- A line without the carriage return that may end it. -/
def dropReturn (line : List Char) : List Char :=
  if line.getLast? = some '\r' then line.dropLast else line

/-- Turns the pieces between line breaks into lines: a piece followed by a break may also end in a
carriage return, and what follows the last break is a line only if it is not empty. -/
def endLines : List (List Char) → List (List Char)
  | [] => []
  | [last] => if last.isEmpty then [] else [last]
  | piece :: rest => dropReturn piece :: endLines rest

/-- The lines of a text, without the breaks that end them. -/
def lines (text : List Char) : List (List Char) := endLines (splitOn '\n' text)

/-- The trimmed text of the line with the given number, counted from one, and nothing when there
is no such line. -/
def trimmedLine (text : List Char) (number : Nat) : List Char :=
  trim ((splitOn '\n' text).getD (number - 1) [])

/-- The texts of a list one after the other, with a separator between neighbours. -/
def joinWith (sep : List Char) : List (List Char) → List Char
  | [] => []
  | [last] => last
  | text :: rest => text ++ sep ++ joinWith sep rest

@[simp] theorem joinWith_nil (sep : List Char) : joinWith sep [] = [] := rfl

@[simp] theorem joinWith_singleton (sep text : List Char) : joinWith sep [text] = text := rfl

theorem joinWith_cons (sep text : List Char) {rest : List (List Char)} (h : rest ≠ []) :
    joinWith sep (text :: rest) = text ++ sep ++ joinWith sep rest := by
  cases rest with
  | nil => exact absurd rfl h
  | cons next rest => rfl

/-- Cutting a text loses nothing but the separators. -/
theorem joinWith_splitOn (sep : Char) (text : List Char) :
    joinWith [sep] (splitOn sep text) = text := by
  induction text with
  | nil => rfl
  | cons c rest ih =>
    rw [splitOn]
    split
    · next h =>
      rw [joinWith_cons _ _ (splitOn_ne_nil sep rest), ih, h]
      rfl
    · cases hs : splitOn sep rest with
      | nil => exact absurd hs (splitOn_ne_nil sep rest)
      | cons first more =>
        rw [hs] at ih
        cases more with
        | nil => simpa using ih
        | cons next more => simpa [List.modifyHead, joinWith] using ih

end Playbook.Text
