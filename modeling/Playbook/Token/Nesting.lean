import Playbook.Text.Lines
import Playbook.Token

/-!
# Runs of tokens between brackets

Arguments, conditions and right-hand sides are runs of tokens on one line that end at a sign which
stands outside all brackets of the run.  `takeNested` cuts off such a run, `arguments?` cuts the run
between two parentheses at its outer commas, and `arrayInterior?` recognises a run that is one pair
of square brackets.
-/

namespace Playbook.Token

/-- The number of open brackets after a lexeme, counting parentheses and square brackets alike.  A
closing bracket without partner is not counted. -/
def nestBrackets (depth : Nat) : Lexeme → Nat
  | .symbol .openParen | .symbol .openBracket => depth + 1
  | .symbol .closeParen | .symbol .closeBracket => depth - 1
  | _ => depth

/-- The number of open parentheses after a lexeme. -/
def nestParens (depth : Nat) : Lexeme → Nat
  | .symbol .openParen => depth + 1
  | .symbol .closeParen => depth - 1
  | _ => depth

/-- The tokens up to, and without, the first line break or the first given sign at depth zero, and
the tokens from there on. -/
def takeNested (nest : Nat → Lexeme → Nat) (stop : Symbol) (depth : Nat) :
    List Token → List Token × List Token
  | [] => ([], [])
  | t :: rest =>
    if t.isBreak || (depth == 0 && t.is stop) then ([], t :: rest)
    else
      let (run, after) := takeNested nest stop (nest depth t.lexeme) rest
      (t :: run, after)

/-- The run of tokens before the first given sign at depth zero, and the tokens after that sign.
There is no such run if the line ends first. -/
def runBefore? (nest : Nat → Lexeme → Nat) (stop : Symbol) (tokens : List Token) :
    Option (List Token × List Token) :=
  match takeNested nest stop 0 tokens with
  | (run, t :: after) => if t.is stop then some (run, after) else none
  | (_, []) => none

/-- The pieces of a run between its commas at depth zero. -/
def cutAtCommas (depth : Nat) : List Token → List (List Token)
  | [] => [[]]
  | t :: rest =>
    if depth == 0 && t.is .comma then [] :: cutAtCommas depth rest
    else (cutAtCommas (nestBrackets depth t.lexeme) rest).modifyHead (t :: ·)

/-- The tokens after the given sign, if it is the first one. -/
def after? (s : Symbol) : List Token → Option (List Token)
  | [] => none
  | t :: rest => if t.is s then some rest else none

/-- Reads an argument list: the arguments between a parenthesis and the one that closes it, and the
tokens after it.  The list may be empty, but no argument may. -/
def arguments? (tokens : List Token) : Option (List (List Token) × List Token) := do
  let inner ← after? .openParen tokens
  let (run, rest) ← runBefore? nestBrackets .closeParen inner
  if run.isEmpty then some ([], rest)
  else
    let pieces := cutAtCommas 0 run
    if pieces.any List.isEmpty then none else some (pieces, rest)

/-- Whether, with the given number of further square brackets open, a square bracket is closed by
the last token. -/
def closesAtEnd (depth : Nat) : List Token → Bool
  | [] => false
  | t :: rest =>
    if t.is .openBracket then closesAtEnd (depth + 1) rest
    else if t.is .closeBracket then
      match depth with
      | 0 => rest.isEmpty
      | d + 1 => closesAtEnd d rest
    else closesAtEnd depth rest

/-- The text between the first and the last token of a run, if these are a square bracket and the
one that closes it. -/
def arrayInterior? (tokens : List Token) : Option (List Char) := do
  let inner ← after? .openBracket tokens
  if closesAtEnd 0 inner then some (written inner).dropLast else none

/-- The content of a run that is a single string. -/
def literal? : List Token → Option (List Char)
  | [t] =>
    match t.lexeme with
    | .quoted _ content => some content
    | _ => none
  | _ => none

/-- The letters of a run that is a single word. -/
def word? : List Token → Option (List Char)
  | [t] =>
    match t.lexeme with
    | .word letters => some letters
    | _ => none
  | _ => none

/-- The lexeme that comes next. -/
def next? : List Token → Option Lexeme
  | [] => none
  | t :: _ => some t.lexeme

/-- The tokens without the line breaks in front of them. -/
def skipBreaks (tokens : List Token) : List Token := tokens.dropWhile isBreak

end Playbook.Token
