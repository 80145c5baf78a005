import Playbook.Json

/-!
# Reading JSON

`Json.read` accepts exactly the texts of the grammar: one value with blanks around it, no comments,
no trailing commas, no leading zeros, no raw control characters in strings.  Nesting is not limited
here, and strings need not spell a text; see `Json.readable`.

`value`, `items` and `members` call each other; their counter is taken from the length of the text.
-/

namespace Playbook.Json

/-- A character between the tokens of a JSON text. -/
def isSpace (c : Char) : Bool := c == ' ' || c == '\t' || c == '\n' || c == '\r'

/-- A text without the blanks in front of it. -/
def skipSpace (text : List Char) : List Char := text.dropWhile isSpace

/-- The value of a hexadecimal digit. -/
def hexValue? (c : Char) : Option Nat :=
  if '0' ≤ c && c ≤ '9' then some (c.toNat - '0'.toNat)
  else if 'a' ≤ c && c ≤ 'f' then some (c.toNat - 'a'.toNat + 10)
  else if 'A' ≤ c && c ≤ 'F' then some (c.toNat - 'A'.toNat + 10)
  else none

/-- The value of four hexadecimal digits. -/
def hexUnit? (a b c d : Char) : Option Nat := do
  let a ← hexValue? a
  let b ← hexValue? b
  let c ← hexValue? c
  let d ← hexValue? d
  some (((a * 16 + b) * 16 + c) * 16 + d)

/-- The character that a backslash and a letter stand for. -/
def simpleEscape? : Char → Option Char
  | '"' => some '"'
  | '\\' => some '\\'
  | '/' => some '/'
  | 'b' => some '\x08'
  | 'f' => some '\x0c'
  | 'n' => some '\n'
  | 'r' => some '\r'
  | 't' => some '\t'
  | _ => none

/-- Reads the rest of a string literal after its opening mark: the codes of its characters,
surrogates written as escapes included, and what follows the closing mark. -/
def readCodes : List Char → Option (List Nat × List Char)
  | [] => none
  | '"' :: rest => some ([], rest)
  | '\\' :: 'u' :: a :: b :: c :: d :: rest => do
    let unit ← hexUnit? a b c d
    let (codes, after) ← readCodes rest
    some (unit :: codes, after)
  | '\\' :: e :: rest => do
    let char ← simpleEscape? e
    let (codes, after) ← readCodes rest
    some (char.toNat :: codes, after)
  | c :: rest =>
    if c.toNat < 0x20 || c = '\\' then none
    else do
      let (codes, after) ← readCodes rest
      some (c.toNat :: codes, after)

/-- The first half of a pair of surrogates. -/
def isLeading (code : Nat) : Bool := 0xD800 ≤ code && code ≤ 0xDBFF

/-- The second half of a pair of surrogates. -/
def isTrailing (code : Nat) : Bool := 0xDC00 ≤ code && code ≤ 0xDFFF

/-- The text that a list of codes spells: a pair of surrogates is one character, and a surrogate
without partner is none. -/
def spell? : List Nat → Option (List Char)
  | [] => some []
  | [code] => if isLeading code || isTrailing code then none else some [Char.ofNat code]
  | code :: next :: rest =>
    if isTrailing code then none
    else if isLeading code then
      if isTrailing next then
        (spell? rest).map (Char.ofNat (0x10000 + (code - 0xD800) * 0x400 + (next - 0xDC00)) :: ·)
      else none
    else (spell? (next :: rest)).map (Char.ofNat code :: ·)

/-- Reads the rest of a string literal after its opening mark. -/
def readString (text : List Char) : Option (Option String × List Char) :=
  (readCodes text).map fun (codes, after) => ((spell? codes).map String.ofList, after)

/-- A decimal digit. -/
def isDigit (c : Char) : Bool := '0' ≤ c && c ≤ '9'

/-- Reads one or more digits. -/
def readDigits (text : List Char) : Option (List Char × List Char) :=
  let digits := text.takeWhile isDigit
  if digits.isEmpty then none else some (digits, text.dropWhile isDigit)

/-- Reads the digits before the point, where only zero itself starts with a zero. -/
def readWhole : List Char → Option (List Char × List Char)
  | '0' :: rest =>
    match rest with
    | c :: _ => if isDigit c then none else some (['0'], rest)
    | [] => some (['0'], [])
  | text => readDigits text

/-- Reads a point and digits, if there is a point. -/
def readFraction : List Char → Option (List Char × List Char)
  | '.' :: rest => readDigits rest
  | text => some ([], text)

/-- Reads an exponent, if there is one. -/
def readExponent (text : List Char) : Option (Option Int × List Char) :=
  let power (sign : Int) (rest : List Char) : Option (Option Int × List Char) :=
    (readDigits rest).map fun (digits, after) => (some (sign * Numeral.digitsValue digits), after)
  match text with
  | c :: rest =>
    if c = 'e' || c = 'E' then
      match rest with
      | '+' :: rest => power 1 rest
      | '-' :: rest => power (-1) rest
      | _ => power 1 rest
    else some (none, text)
  | [] => some (none, text)

/-- Reads a number. -/
def readNumeral (text : List Char) : Option (Numeral × List Char) := do
  let (negative, text) := match text with
    | '-' :: rest => (true, rest)
    | _ => (false, text)
  let (whole, text) ← readWhole text
  let (fraction, text) ← readFraction text
  let (exponent, text) ← readExponent text
  some (⟨negative, whole, fraction, exponent⟩, text)

mutual

/-- Reads a value, with blanks in front of it. -/
def value : Nat → List Char → Option (Json × List Char)
  | 0, _ => none
  | bound + 1, text =>
    match skipSpace text with
    | 'n' :: 'u' :: 'l' :: 'l' :: rest => some (.null, rest)
    | 't' :: 'r' :: 'u' :: 'e' :: rest => some (.bool true, rest)
    | 'f' :: 'a' :: 'l' :: 's' :: 'e' :: rest => some (.bool false, rest)
    | '"' :: rest => (readString rest).map fun (content, after) => (.string content, after)
    | '[' :: rest =>
      match skipSpace rest with
      | ']' :: after => some (.array [], after)
      | inner => (items bound inner).map fun (list, after) => (.array list, after)
    | '{' :: rest =>
      match skipSpace rest with
      | '}' :: after => some (.object [], after)
      | inner => (members bound inner).map fun (list, after) => (.object list, after)
    | start => (readNumeral start).map fun (n, after) => (.number n, after)

/-- Reads one or more items of an array and its closing bracket. -/
def items : Nat → List Char → Option (List Json × List Char)
  | 0, _ => none
  | bound + 1, text => do
    let (first, after) ← value bound text
    match skipSpace after with
    | ',' :: rest =>
      let (list, after) ← items bound rest
      some (first :: list, after)
    | ']' :: rest => some ([first], rest)
    | _ => none

/-- Reads one or more members of an object and its closing brace. -/
def members : Nat → List Char → Option (List (Option String × Json) × List Char)
  | 0, _ => none
  | bound + 1, text =>
    match skipSpace text with
    | '"' :: rest => do
      let (key, after) ← readString rest
      match skipSpace after with
      | ':' :: rest =>
        let (first, after) ← value bound rest
        match skipSpace after with
        | ',' :: rest =>
          let (list, after) ← members bound rest
          some ((key, first) :: list, after)
        | '}' :: rest => some ([(key, first)], rest)
        | _ => none
      | _ => none
    | _ => none

end

/-- The value of a JSON text. -/
def read (source : String) : Option Json := do
  let text := source.toList
  let (j, after) ← value (2 * text.length + 2) text
  if (skipSpace after).isEmpty then some j else none

end Playbook.Json
