import Playbook.Json.Numeral

/-!
# JSON values

A `Json` value keeps everything that matters when it is read as a tree of the library: the members
of an object in their order, repeated keys included, and numbers as they are written.  A string
literal can be grammatical and still spell no text, when its escapes leave a surrogate without
partner.

Most readers demand more than the grammar does: `Json.sound` says that all strings spell texts and
all numbers stay finite in double precision, and `Json.depth` measures nesting.
-/

namespace Playbook

/-- A JSON value.  A string, and the key of a member, is `none` if it spells no text. -/
inductive Json
  | null
  | bool (b : Bool)
  | number (n : Numeral)
  | string (content : Option String)
  | array (items : List Json)
  | object (members : List (Option String × Json))
  deriving Repr, Inhabited

namespace Json

/-- The value of a text. -/
def text (s : String) : Json := .string (some s)

/-- An object with texts as keys. -/
def record (members : List (String × Json)) : Json :=
  .object (members.map fun (key, value) => (some key, value))

mutual

/-- The number of arrays and objects that lie inside each other. -/
def depth : Json → Nat
  | .array items => depthOfItems items + 1
  | .object members => depthOfMembers members + 1
  | _ => 0

/-- The depth of the deepest item. -/
def depthOfItems : List Json → Nat
  | [] => 0
  | item :: rest => max item.depth (depthOfItems rest)

/-- The depth of the deepest member. -/
def depthOfMembers : List (Option String × Json) → Nat
  | [] => 0
  | (_, value) :: rest => max value.depth (depthOfMembers rest)

end

mutual

/-- Whether all strings and keys spell texts and all numbers have a finite value. -/
def sound : Json → Bool
  | .number n => n.fits
  | .string content => content.isSome
  | .array items => soundItems items
  | .object members => soundMembers members
  | _ => true

/-- Whether every item is sound. -/
def soundItems : List Json → Bool
  | [] => true
  | item :: rest => item.sound && soundItems rest

/-- Whether every member is sound. -/
def soundMembers : List (Option String × Json) → Bool
  | [] => true
  | (key, value) :: rest => key.isSome && value.sound && soundMembers rest

end

/-- Whether a value is sound and nests at most to the given depth. -/
def readable (limit : Nat) (j : Json) : Bool := j.sound && j.depth ≤ limit

/-- The text of a string. -/
def string? : Json → Option String
  | .string content => content
  | _ => none

/-- The texts of an array of strings. -/
def strings? : Json → Option (List String)
  | .array items => items.mapM string?
  | _ => none

/-- A truth value. -/
def bool? : Json → Option Bool
  | .bool b => some b
  | _ => none

/-- A value that may also be absent, or null, which is the same. -/
def optional? {α : Type} (read : Json → Option α) : Option Json → Option (Option α)
  | none => some none
  | some .null => some none
  | some value => (read value).map some

/-- How much is understood.  By itself a value is read strictly, as a part of a statement
leniently. -/
inductive Reading
  | strict
  | lenient
  deriving DecidableEq, Repr

/-- Whether a value holds no data: it is null or, read leniently, an object without members. -/
def holdsNothing (r : Reading) : Json → Bool
  | .null => true
  | .object [] => r == .lenient
  | _ => false

/-- The one word of a choice without further data: a string, or an object that has the word as its
only key and no data for it. -/
def choice? (r : Reading) : Json → Option String
  | .string content => content
  | .object [(key, value)] => if value.holdsNothing r then key else none
  | _ => none

/-- One of some names: the name itself or, read leniently, its number, counted from zero. -/
def nameAmong? (r : Reading) (names : List String) : Json → Option String
  | .string content => content
  | .number n => if r = .lenient then n.natural?.bind (names[·]?) else none
  | _ => none

end Json

end Playbook
