import Playbook.Json
import Playbook.Text.Lines

/-!
# Printing JSON

The printed form has one member or item per line, indented by two spaces for each level.  Only
quotation marks, backslashes and control characters are escaped.
-/

namespace Playbook.Json

/-- A digit of a hexadecimal number. -/
def hexDigit (n : Nat) : Char := (Nat.digitChar (n % 16))

/-- A character as it is written inside a string. -/
def escape (c : Char) : List Char :=
  if c = '"' then ['\\', '"']
  else if c = '\\' then ['\\', '\\']
  else if c = '\x08' then ['\\', 'b']
  else if c = '\x0c' then ['\\', 'f']
  else if c = '\n' then ['\\', 'n']
  else if c = '\r' then ['\\', 'r']
  else if c = '\t' then ['\\', 't']
  else if c.toNat < 0x20 then "\\u00".toList ++ [hexDigit (c.toNat / 16), hexDigit c.toNat]
  else [c]

/-- A text as a string literal. -/
def quote (s : List Char) : List Char := '"' :: (s.flatMap escape ++ ['"'])

/-- A string literal; what spells no text is printed as a replacement character. -/
def printString (content : Option String) : List Char :=
  quote ((content.map String.toList).getD ['\uFFFD'])

/-- A number as it is written. -/
def printNumeral (n : Numeral) : List Char :=
  (if n.negative then ['-'] else []) ++ n.whole ++
    (if n.fraction.isEmpty then [] else '.' :: n.fraction) ++
    match n.exponent with
    | some e => 'e' :: (toString e).toList
    | none => []

/-- A line break and the indentation of a level. -/
def newLine (level : Nat) : List Char := '\n' :: List.replicate (2 * level) ' '

mutual

/-- A value at the given level of indentation. -/
def print (level : Nat) : Json → List Char
  | .null => "null".toList
  | .bool b => if b then "true".toList else "false".toList
  | .number n => printNumeral n
  | .string content => printString content
  | .array [] => "[]".toList
  | .array (item :: rest) =>
    '[' :: newLine (level + 1) ++ print (level + 1) item ++ printItems (level + 1) rest ++
      newLine level ++ [']']
  | .object [] => ['{', '}']
  | .object ((key, value) :: rest) =>
    '{' :: newLine (level + 1) ++ printString key ++ ": ".toList ++ print (level + 1) value ++
      printMembers (level + 1) rest ++ newLine level ++ ['}']

/-- Further items, each after a comma. -/
def printItems (level : Nat) : List Json → List Char
  | [] => []
  | item :: rest => ',' :: newLine level ++ print level item ++ printItems level rest

/-- Further members, each after a comma. -/
def printMembers (level : Nat) : List (Option String × Json) → List Char
  | [] => []
  | (key, value) :: rest =>
    ',' :: newLine level ++ printString key ++ ": ".toList ++ print level value ++
      printMembers level rest

end

/-- The printed form of a value. -/
def pretty (j : Json) : String := String.ofList (print 0 j)

end Playbook.Json
