import Playbook.Text.Lines

/-!
# Paths

A path is a text; names are separated by slashes, a slash in front makes it absolute.  What a path
means is read off its `components`, which leave out empty segments and all `.` but a leading one.
`normalize` also removes `.` and `..` as far as this is possible without looking at any directory.
-/

namespace Playbook

/-- A path as it is written. -/
structure Path where
  text : String
  deriving DecidableEq, Repr, Inhabited

namespace Path

/-- The steps that a path consists of. -/
inductive Component
  /-- The directory at the top, in front of an absolute path. -/
  | root
  /-- The directory itself, written `.`. -/
  | here
  /-- The directory above, written `..`. -/
  | up
  | name (s : String)
  deriving DecidableEq, Repr

/-- A step as it is written between slashes. -/
def Component.text : Component → List Char
  | .root => []
  | .here => ['.']
  | .up => ['.', '.']
  | .name s => s.toList

/-- The step that a segment inside a path stands for; empty segments and `.` stand for none. -/
def Component.ofSegment? : List Char → Option Component
  | [] => none
  | ['.'] => none
  | ['.', '.'] => some .up
  | segment => some (.name (String.ofList segment))

/-- The texts between the slashes of a path. -/
def segments (p : Path) : List (List Char) := Text.splitOn '/' p.text.toList

/-- Whether a path starts at the top. -/
def isAbsolute (p : Path) : Bool := p.text.toList.head? == some '/'

/-- The steps of a path. -/
def components (p : Path) : List Component :=
  let inner := p.segments.filterMap Component.ofSegment?
  if p.isAbsolute then .root :: inner
  else if p.segments.head? = some ['.'] then .here :: inner
  else inner

/-- The plainest path with the given steps. -/
def ofComponents : List Component → Path
  | .root :: rest => ⟨String.ofList ('/' :: Text.joinWith ['/'] (rest.map Component.text))⟩
  | steps => ⟨String.ofList (Text.joinWith ['/'] (steps.map Component.text))⟩

/-- Follows one more step, given the steps so far, the last one first: a step up takes back a name,
and stays at the top when it is there. -/
def follow (steps : List Component) : Component → List Component
  | .here => steps
  | .up =>
    match steps with
    | .name _ :: below => below
    | .root :: _ => steps
    | _ => .up :: steps
  | step => step :: steps

/-- The plainest path that leads to the same place, as far as the text alone tells. -/
def normalize (p : Path) : Path := ofComponents (p.components.foldl follow []).reverse

/-- The path that is reached from a directory by another path, which wins if it is absolute. -/
def join (base p : Path) : Path :=
  if p.isAbsolute || base.text.isEmpty then p
  else if base.text.toList.getLast? == some '/' then ⟨base.text ++ p.text⟩
  else ⟨base.text ++ "/" ++ p.text⟩

/-- Whether a segment inside a path stands for no step. -/
def isIdle (segment : List Char) : Bool := (Component.ofSegment? segment).isNone

/-- The path without its last step; there is none for the top and for the empty path.  What is left
is kept as it is written, but ends with a step. -/
def parent? (p : Path) : Option Path :=
  match p.segments with
  | [] => none
  | first :: inner =>
    match inner.reverse.dropWhile isIdle with
    | [] => if first.isEmpty then none else some ⟨""⟩
    | _ :: before =>
      let kept := first :: (before.dropWhile isIdle).reverse
      some ⟨if kept = [[]] then "/" else String.ofList (Text.joinWith ['/'] kept)⟩

/-- The directory that a path lies in, and the empty path if there is none. -/
def directory (p : Path) : Path := p.parent?.getD ⟨""⟩

/-- The name that a path ends with. -/
def fileName? (p : Path) : Option String :=
  match p.components.getLast? with
  | some (.name s) => some s
  | _ => none

/-- What follows the last dot of the name that a path ends with.  A dot in front of the name does
not count. -/
def extension? (p : Path) : Option String := do
  let name ← p.fileName?
  match (Text.splitOn '.' name.toList).reverse with
  | last :: before =>
    if before.all List.isEmpty && before.length ≤ 1 then none else some (String.ofList last)
  | [] => none

end Path

end Playbook
