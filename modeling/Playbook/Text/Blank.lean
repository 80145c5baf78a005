/-!
# Blank characters

Texts are handled as lists of characters.  A character is *blank* when it has the Unicode
property `White_Space`; blanks separate tokens, and quoted lines and list elements are trimmed
of them on both sides.
-/

namespace Playbook.Text

/-- The code point ranges, ends included, of the Unicode property `White_Space`. -/
def blankRanges : List (Nat × Nat) :=
  [(0x09, 0x0D), (0x20, 0x20), (0x85, 0x85), (0xA0, 0xA0), (0x1680, 0x1680), (0x2000, 0x200A),
    (0x2028, 0x2029), (0x202F, 0x202F), (0x205F, 0x205F), (0x3000, 0x3000)]

/-- Whether a character has the Unicode property `White_Space`. -/
def isBlank (c : Char) : Bool :=
  blankRanges.any fun (low, high) => low ≤ c.toNat && c.toNat ≤ high

/-- A text without its leading blanks. -/
def trimStart (text : List Char) : List Char := text.dropWhile isBlank

/-- A text without its trailing blanks. -/
def trimEnd (text : List Char) : List Char := (text.reverse.dropWhile isBlank).reverse

/-- A text without its leading and trailing blanks. -/
def trim (text : List Char) : List Char := trimEnd (trimStart text)

@[simp] theorem trim_nil : trim [] = [] := rfl

end Playbook.Text
