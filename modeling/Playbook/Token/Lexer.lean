import Playbook.Text.Lines
import Playbook.Token

/-!
# Reading tokens

Lexemes never cross a line, so a source is read line by line: `scanLine` cuts one line into pieces
and the layout at its end, and `scan` numbers the lines and puts a line break after each.  Runs of
lines without lexemes are collapsed: apart from a break that ends the first line, a break is a token
only if its line holds one.  The layout in between goes to the token that follows, so nothing of the
source is lost.

The only defect at this level is a string that is not closed on its line.
-/

namespace Playbook

/-- A character of a name, a keyword or a number. -/
def isWordChar (c : Char) : Bool := c.isAlphanum || c == '_'

/-- A name: a word that does not start with a digit. -/
def isIdentifier (word : List Char) : Bool :=
  match word with
  | [] => false
  | c :: _ => c.isAlpha || c == '_'

/-- A character that opens and closes a string. -/
def isQuote (c : Char) : Bool := c == '"' || c == '\x27'

/-- The punctuation that is read from one character whatever follows it. -/
def Symbol.ofChar? : Char → Option Symbol
  | '(' => some .openParen
  | ')' => some .closeParen
  | '{' => some .openBrace
  | '}' => some .closeBrace
  | '[' => some .openBracket
  | ']' => some .closeBracket
  | ',' => some .comma
  | _ => none

/-- Whether two signs are read as one operator. -/
def pairsUp (first second : Char) : Bool :=
  (second == '=' && (first == '=' || first == '!' || first == '<' || first == '>')) ||
    (first == '&' && second == '&') || (first == '|' && second == '|')

/-- Reads the rest of a string up to its closing mark: the content as written, and what follows the
mark.  A backslash keeps the character after it from closing the string. -/
def readQuoted (mark : Char) : List Char → Option (List Char × List Char)
  | [] => none
  | '\\' :: c :: rest =>
    (readQuoted mark rest).map fun (content, after) => ('\\' :: c :: content, after)
  | c :: rest =>
    if c = mark then some ([], rest)
    else (readQuoted mark rest).map fun (content, after) => (c :: content, after)

/-- Reads a sign that is neither bracket nor comma: a pair that belongs together, the assignment
sign, or the character alone. -/
def readSign (c : Char) : List Char → Lexeme × List Char
  | second :: rest =>
    if pairsUp c second then (.operator [c, second], rest)
    else (if c = '=' then .symbol .assign else .operator [c], second :: rest)
  | [] => (if c = '=' then .symbol .assign else .operator [c], [])

/-- Reads one lexeme from a character that is neither blank nor the start of a comment; there is
none only if a string is not closed. -/
def readLexeme (c : Char) (rest : List Char) : Option (Lexeme × List Char) :=
  match Symbol.ofChar? c with
  | some s => some (.symbol s, rest)
  | none =>
    if isQuote c then (readQuoted c rest).map fun (content, after) => (.quoted c content, after)
    else if isWordChar c then
      some (.word (c :: rest.takeWhile isWordChar), rest.dropWhile isWordChar)
    else some (readSign c rest)

theorem length_readQuoted_le {mark : Char} {text content after : List Char}
    (h : readQuoted mark text = some (content, after)) : after.length ≤ text.length := by
  fun_induction readQuoted mark text generalizing content after with
  | case1 => simp at h
  | case2 c rest ih =>
    obtain ⟨⟨s, r⟩, hs, he⟩ := Option.map_eq_some_iff.1 h
    simp only [Prod.mk.injEq] at he
    have := ih hs
    simp only [List.length_cons, ← he.2]
    omega
  | case3 rest =>
    simp only [Option.some.injEq, Prod.mk.injEq] at h
    simp [← h.2]
  | case4 c rest _ _ ih =>
    obtain ⟨⟨s, r⟩, hs, he⟩ := Option.map_eq_some_iff.1 h
    simp only [Prod.mk.injEq] at he
    have := ih hs
    simp only [List.length_cons, ← he.2]
    omega

theorem length_readSign_le (c : Char) (rest : List Char) :
    (readSign c rest).2.length ≤ rest.length := by
  cases rest with
  | nil => simp [readSign]
  | cons second rest =>
    rw [readSign]
    split <;> simp

/-- A lexeme takes at least the character it starts with. -/
theorem length_readLexeme_le {c : Char} {rest : List Char} {l : Lexeme} {after : List Char}
    (h : readLexeme c rest = some (l, after)) : after.length ≤ rest.length := by
  unfold readLexeme at h
  split at h
  · simp only [Option.some.injEq, Prod.mk.injEq] at h
    simp [← h.2]
  · split at h
    · obtain ⟨⟨s, r⟩, hs, he⟩ := Option.map_eq_some_iff.1 h
      simp only [Prod.mk.injEq] at he
      exact he.2 ▸ length_readQuoted_le hs
    · split at h
      · simp only [Option.some.injEq, Prod.mk.injEq] at h
        exact h.2 ▸ (List.dropWhile_sublist isWordChar).length_le
      · simp only [Option.some.injEq] at h
        have := length_readSign_le c rest
        rw [h] at this
        exact this

/-- Whether the text that starts with the given character is a comment. -/
def startsComment (c : Char) (rest : List Char) : Bool := c == '/' && rest.head? == some '/'

/-- Cuts a line into pieces and the layout after the last one.  There is no result if a string is
not closed. -/
def scanLine (line : List Char) : Option (List Piece × List Char) :=
  let gap := line.takeWhile Text.isBlank
  match _h : line.dropWhile Text.isBlank with
  | [] => some ([], gap)
  | c :: rest =>
    if startsComment c rest then some ([], gap ++ c :: rest)
    else
      match _hl : readLexeme c rest with
      | none => none
      | some (lexeme, after) =>
        (scanLine after).map fun (pieces, trailing) => (⟨gap, lexeme⟩ :: pieces, trailing)
termination_by line.length
decreasing_by
  have h₁ := length_readLexeme_le _hl
  have h₂ := (List.dropWhile_sublist Text.isBlank (l := line)).length_le
  rw [_h, List.length_cons] at h₂
  omega

/-- The tokens of a source text, and the layout after the last one. -/
structure Scan where
  tokens : List Token
  trailing : List Char
  deriving DecidableEq, Repr

/-- Puts layout in front of what was read. -/
def Scan.carry (layout : List Char) (s : Scan) : Scan :=
  match s.tokens with
  | [] => { s with trailing := layout ++ s.trailing }
  | t :: ts => { s with tokens := { t with gap := layout ++ t.gap } :: ts }

/-- Puts tokens in front of what was read. -/
def Scan.after (tokens : List Token) (s : Scan) : Scan := { s with tokens := tokens ++ s.tokens }

/-- Reads the lines of a source, the first of which has the given number.  A line whose string is
not closed is reported by its number. -/
def scanLines (number : Nat) : List (List Char) → Except Nat Scan
  | [] => .ok ⟨[], []⟩
  | line :: more =>
    match scanLine line with
    | none => .error number
    | some (pieces, trailing) =>
      let tokens := pieces.map fun p => { p with line := number : Token }
      if more.isEmpty then .ok ⟨tokens, trailing⟩
      else if pieces.isEmpty && 1 < number then
        (scanLines (number + 1) more).map (Scan.carry (trailing ++ ['\n']))
      else
        (scanLines (number + 1) more).map
          (Scan.after (tokens ++ [{ gap := trailing, lexeme := .lineBreak, line := number }]))

/-- The tokens of a source text; the error is the number of the line with an unclosed string. -/
def scan (source : List Char) : Except Nat Scan := scanLines 1 (Text.splitOn '\n' source)

end Playbook
