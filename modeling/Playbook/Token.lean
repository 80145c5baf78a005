import Playbook.Text.Blank

/-!
# Tokens

A source text is a sequence of *lexemes* with layout (blanks and comments) between them.  A token
is a lexeme together with the line it stands on and the layout in front of it, so that a list of
tokens still knows the text it was read from: `Token.written` gives back every character, and
`Token.span` the text from the first lexeme of a run to the last one.
-/

namespace Playbook

/-- The punctuation that the grammar refers to. -/
inductive Symbol
  | openParen
  | closeParen
  | openBrace
  | closeBrace
  | openBracket
  | closeBracket
  | comma
  | assign
  deriving DecidableEq, Repr

/-- The character that a punctuation sign is written with. -/
def Symbol.char : Symbol → Char
  | .openParen => '('
  | .closeParen => ')'
  | .openBrace => '{'
  | .closeBrace => '}'
  | .openBracket => '['
  | .closeBracket => ']'
  | .comma => ','
  | .assign => '='

/-- The smallest units of a source text. -/
inductive Lexeme
  /-- A name, a keyword or a number. -/
  | word (letters : List Char)
  /-- A string in quotes, with its content as written, escapes included. -/
  | quoted (mark : Char) (content : List Char)
  /-- Punctuation that the grammar refers to. -/
  | symbol (s : Symbol)
  /-- Any other sign. -/
  | operator (signs : List Char)
  /-- A line break. -/
  | lineBreak
  deriving DecidableEq, Repr

/-- The characters that a lexeme is written with. -/
def Lexeme.text : Lexeme → List Char
  | .word letters => letters
  | .quoted mark content => mark :: (content ++ [mark])
  | .symbol s => [s.char]
  | .operator signs => signs
  | .lineBreak => ['\n']

/-- A lexeme with the layout that stands between it and the lexeme before it. -/
structure Piece where
  gap : List Char
  lexeme : Lexeme
  deriving DecidableEq, Repr

/-- The text of a piece: its layout, then its lexeme. -/
def Piece.written (p : Piece) : List Char := p.gap ++ p.lexeme.text

/-- A piece of a source text with the number of the line that its lexeme stands on. -/
structure Token extends Piece where
  line : Nat
  deriving DecidableEq, Repr

namespace Token

/-- Whether a token is the given punctuation sign. -/
def is (t : Token) (s : Symbol) : Bool := t.lexeme == .symbol s

/-- Whether a token is a line break. -/
def isBreak (t : Token) : Bool := t.lexeme == .lineBreak

/-- The text that a run of tokens covers, the layout before the first one included. -/
def written (tokens : List Token) : List Char := tokens.flatMap fun t => t.toPiece.written

/-- The text from the first lexeme of a run of tokens to its last one. -/
def span : List Token → List Char
  | [] => []
  | first :: rest => first.lexeme.text ++ written rest

@[simp] theorem written_nil : written [] = [] := rfl

@[simp] theorem written_cons (t : Token) (ts : List Token) :
    written (t :: ts) = t.gap ++ t.lexeme.text ++ written ts := rfl

@[simp] theorem written_append (ts us : List Token) :
    written (ts ++ us) = written ts ++ written us := by
  simp [written]

@[simp] theorem span_nil : span [] = [] := rfl

@[simp] theorem span_cons (t : Token) (ts : List Token) :
    span (t :: ts) = t.lexeme.text ++ written ts := rfl

end Token

end Playbook
